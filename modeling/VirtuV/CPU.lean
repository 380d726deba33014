import VirtuV.Pipeline

/-!
# VirtuV.CPU

The `CPU`: its constructor, the program loader and the run loop.

The CPU owns the register bank, the MMU, the physical memory and the page
table; its pipeline refers to the same objects, so they live in the state of
the pipeline.
-/

namespace VirtuV

open Stateful

structure CPU where
  pipeline : Pipeline
  privilegeMode : PrivilegeMode

/-- What the loader finds at a file path. -/
inductive ProgramFile where
  /-- The file cannot be opened. -/
  | unopened
  /-- The file opens, but its size is none that a `std::vector` can have: the
  -1 of a `tellg` that failed, cast to `size_t`. -/
  | oversized
  /-- The file opens, but a buffer of its size cannot be allocated, as of the
  size that `tellg` gives of a directory. -/
  | unallocated
  /-- The file opens and its buffer is allocated, but reading it fails. -/
  | unreadable
  | contents (bytes : List Byte)
deriving DecidableEq, Repr

namespace CPU

/-- `CPU(memory_size)`: one page, at virtual address 0, mapped with every
permission to the first frame. -/
def new (memorySize : Nat) (garbage : Uninitialized) : CPU :=
  let virtualAddress : Word := 0x0000
  let pageNumber := virtualAddress &&& 0xFFFFF000
  let entryValue := (pageNumber &&& 0xFFFFF000) ||| PageTableEntry.validBit |||
    PageTableEntry.readBit ||| PageTableEntry.writeBit ||| PageTableEntry.executeBit |||
    PageTableEntry.userAccessibleBit
  let pageTable := PageTable.new.addEntry pageNumber ⟨entryValue⟩
  let mmu : MMU := ⟨.new memorySize, pageTable, .machine⟩
  { pipeline := .new .new mmu garbage, privilegeMode := .machine }

/-- The copy loop of `load_program`, from index `i` on. -/
def copyToMemory (i : Nat) : List Byte → EStateM Exception MMU Unit
  | [] => return
  | byte :: buffer => do
    MMU.write (BitVec.ofNat 32 i) byte
    copyToMemory (i + 1) buffer

/-- `load_program`: the status it returns or the exception it throws, and the
CPU it leaves.  A write that throws is caught and reported as -1; the buffer is
allocated outside of any `try`. -/
def loadProgram (file : ProgramFile) (self : CPU) : Except Exception Int × CPU :=
  match file with
  | .unopened => (.ok (-1), self)
  | .oversized => (.error .lengthError, self)
  | .unallocated => (.error .badAlloc, self)
  | .unreadable => (.ok (-1), self)
  | .contents buffer =>
    match (copyToMemory 0 buffer).run self.pipeline.mmu with
    | .ok () mmu =>
      let registerBank := self.pipeline.registerBank.setPc 0
      (.ok 0, { self with pipeline := { self.pipeline with mmu, registerBank } })
    | .error _ mmu => (.ok (-1), { self with pipeline := { self.pipeline with mmu } })

/-- A fresh CPU after an attempt to load a file of these bytes. -/
def boot (memorySize : Nat) (garbage : Uninitialized) (bytes : List Byte) : CPU :=
  ((CPU.new memorySize garbage).loadProgram (.contents bytes)).2

/-- One iteration of the run loop. -/
def runCycle : EStateM Exception CPU Unit :=
  zoom CPU.pipeline (fun pipeline self => { self with pipeline }) Pipeline.runCycle

/-- `while (true) run_cycle()`, cut off after `fuel` cycles: `none` when no
cycle has thrown by then, else the exception that ended the loop. -/
def runLoop : Nat → CPU → Option (Exception × CPU)
  | 0, _ => none
  | fuel + 1, self =>
    match runCycle.run self with
    | .ok () self => runLoop fuel self
    | .error e self => some (e, self)

/-- `run`: an `EndOfProgramException` is a normal return; any other exception
is thrown again as `throw e` from a handler that caught it as
`const std::exception&`, which throws a copy of that base class alone. -/
def run (fuel : Nat) (self : CPU) : Option (EStateM.Result Exception CPU Unit) :=
  match runLoop fuel self with
  | none => none
  | some (.endOfProgramException _, self) => some (.ok () self)
  | some (_, self) => some (.error .exception self)

def getRegister (self : CPU) (reg : BitVec 8) : Except Exception Word :=
  self.pipeline.registerBank.read reg

/-- A read that throws is caught and answered with -1. -/
def readWordFromMemory (self : CPU) (address : Word) : Word :=
  match self.pipeline.mmu.readWord address with
  | .ok word => word
  | .error _ => -1

end CPU

end VirtuV
