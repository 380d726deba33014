import VirtuV.Basic

/-!
# VirtuV.Instruction

Decoded instructions: the bit fields of each format, the immediates assembled
from bit ranges, and the variant the pipeline stages hand to each other.

A decoded instruction is its raw word seen through the layout of its format;
the fields the layouts have in common sit at the same bits in all of them.
-/

namespace VirtuV

/-! ## bitutils -/

/-- `sign_extend`: flip the sign bit of a `bitWidth`-bit value and subtract it. -/
def signExtend (value : Word) (bitWidth : Nat) : Word :=
  let signBit := (1 : Word) <<< (bitWidth - 1)
  (value ^^^ signBit) - signBit

/-! ## get_combined_immediate -/

/-- The inner loop of `get_combined_immediate`: the bits of `raw` from `bit`
down to `stop`, or-ed into `immediate` with bit `stop` landing on bit 0. -/
def combineRange (raw : Word) (stop : Nat) : Nat → Word → Word
  | bit, immediate =>
    if bit < stop then
      immediate
    else
      let dstBit := bit - stop
      let immediate := immediate ||| (((raw >>> bit) &&& 1) <<< dstBit)
      match bit with
      | 0 => immediate
      | bit + 1 => combineRange raw stop bit immediate

/-- `get_combined_immediate`: every range is aligned to bit 0 of the result. -/
def getCombinedImmediate (raw : Word) (bitRanges : List (Nat × Nat)) : Word :=
  bitRanges.foldl (fun immediate range => combineRange raw range.2 range.1 immediate) 0

/-! ## instruction formats -/

inductive InstructionFormat where
  | rType
  | iType
  | sType
  | bType
  | uType
  | jType
  | invalidType
deriving DecidableEq, Repr

namespace InstructionFormat

/-- The enumerator's value, the opcode of the format. -/
def value : InstructionFormat → Word
  | rType => 0x33
  | iType => 0x13
  | sType => 0x23
  | bType => 0x63
  | uType => 0x37
  | jType => 0x6F
  | invalidType => 0xFF

end InstructionFormat

/-! ## decoded instructions -/

/-- `DecodedInstructionBase`: a word of which only the opcode is known. -/
structure DecodedInstructionBase where
  raw : Word

/-- The opcode field, widened to the `uint32_t` it is returned as. -/
def DecodedInstructionBase.getOpcode (self : DecodedInstructionBase) : Word :=
  (self.raw.extractLsb' 0 7).setWidth 32

/-- `DecodedInstruction<Format>`. -/
structure DecodedInstruction (format : InstructionFormat) where
  raw : Word
deriving DecidableEq, Repr

namespace DecodedInstruction

variable {format : InstructionFormat} (self : DecodedInstruction format)

def opcode : BitVec 7 := self.raw.extractLsb' 0 7
def rd : BitVec 5 := self.raw.extractLsb' 7 5
def funct3 : BitVec 3 := self.raw.extractLsb' 12 3
def rs1 : BitVec 5 := self.raw.extractLsb' 15 5
def rs2 : BitVec 5 := self.raw.extractLsb' 20 5
def funct7 : BitVec 7 := self.raw.extractLsb' 25 7

end DecodedInstruction

/-- `get_opcode` of the invalid format, which holds no instruction. -/
def DecodedInstruction.getOpcode (_ : DecodedInstruction .invalidType) : Except Exception Word :=
  .error (.runtimeError "Attempting to access an invalid instruction format")

/-- `get_immediate` of the I format. -/
def getImmediateI (self : DecodedInstruction .iType) : Word :=
  signExtend (getCombinedImmediate self.raw [(31, 20)]) 12

/-- `get_immediate` of the S format. -/
def getImmediateS (self : DecodedInstruction .sType) : Word :=
  signExtend (getCombinedImmediate self.raw [(31, 25), (11, 7)]) 12

/-- `get_immediate` of the B format. -/
def getImmediateB (self : DecodedInstruction .bType) : Word :=
  signExtend (getCombinedImmediate self.raw [(31, 31), (30, 25), (11, 8), (7, 7)]) 13

/-- `get_immediate` of the U format. -/
def getImmediateU (self : DecodedInstruction .uType) : Word :=
  getCombinedImmediate self.raw [(31, 12)] <<< 12

/-- `get_immediate` of the J format. -/
def getImmediateJ (self : DecodedInstruction .jType) : Word :=
  signExtend (getCombinedImmediate self.raw [(31, 31), (30, 21), (20, 20), (19, 12)]) 21

/-- `DecodedInstructionVariant`, its alternatives in the order of the source. -/
inductive DecodedInstructionVariant where
  | invalidType (inst : DecodedInstruction .invalidType)
  | rType (inst : DecodedInstruction .rType)
  | iType (inst : DecodedInstruction .iType)
  | sType (inst : DecodedInstruction .sType)
  | bType (inst : DecodedInstruction .bType)
  | uType (inst : DecodedInstruction .uType)
  | jType (inst : DecodedInstruction .jType)
deriving DecidableEq, Repr

namespace DecodedInstructionVariant

/-- `variant::index`. -/
def index : DecodedInstructionVariant → Nat
  | invalidType _ => 0
  | rType _ => 1
  | iType _ => 2
  | sType _ => 3
  | bType _ => 4
  | uType _ => 5
  | jType _ => 6

/-- `std::get<DecodedInstruction<S_TYPE>>`. -/
def getSType : DecodedInstructionVariant → Except Exception (DecodedInstruction .sType)
  | sType inst => .ok inst
  | _ => .error .badVariantAccess

end DecodedInstructionVariant

end VirtuV
