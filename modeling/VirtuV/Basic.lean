/-!
# VirtuV.Basic

The fixed-width integers of the emulator and the exceptions its methods throw.

`uint32_t` and `int32_t` are both `Word`: the conversions between them keep the
bits, and the operations that depend on the sign say so where they are used.
-/

namespace VirtuV

/-- `uint32_t` and `int32_t`. -/
abbrev Word := BitVec 32

/-- `uint8_t`. -/
abbrev Byte := BitVec 8

/-- An exception in flight: its dynamic type and the text `what()` returns. -/
inductive Exception where
  | pageFaultException (msg : String)
  | accessViolationException (msg : String)
  | outOfRange (msg : String)
  | invalidArgument (msg : String)
  | runtimeError (msg : String)
  | endOfProgramException (msg : String)
  | badVariantAccess
  | lengthError
  | badAlloc
  /-- A bare `std::exception`; the text of its `what()` is left to the
  implementation. -/
  | exception
deriving DecidableEq, Repr

/-- The privilege level the MMU checks accesses against. -/
inductive PrivilegeMode where
  | user
  | supervisor
  | machine
deriving DecidableEq, Repr

end VirtuV
