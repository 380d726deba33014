import VirtuV.CPU
import VirtuV.Immediate
import VirtuV.Translation
import Mathlib.Tactic.SplitIfs

/-!
# VirtuV.Cycle

One cycle of the pipeline as a flat machine.

Of everything the five stages keep between cycles, only the execute stage's
`result` is read again before it is overwritten.  A `Core` is what is left of
a `Pipeline` without the other latches: the register bank, the MMU and that
result.  The five sections of `run_cycle` act on it as

* `fetch` — read the word at `pc`, advance `pc`;
* `decode` — a function of the word;
* `execute` — a function of the registers, `pc` and the old result;
* `access` — a store, or a load;
* `retire` — write the destination register.

`runCycle_core` says that this is what the pipeline does, exceptions included,
and `cycle_of_fetch` with one equation per opcode says what the machine does
with a fetched word.
-/

namespace VirtuV

open Stateful
open Rv32i (Registers opcode rd funct3 rs1 rs2 funct7 immI immU)

/-! ## registers -/

namespace RegisterBank

/-- The contents of the registers. -/
def x (self : RegisterBank) : Registers := fun r => self.registers[r.toNat]

/-- Write a register, the zero register excepted. -/
def setX (self : RegisterBank) (r : BitVec 5) (value : Word) : RegisterBank :=
  if r = 0 then self else { self with registers := self.registers.set r.toNat value }

@[simp] theorem setX_pc (self : RegisterBank) (r : BitVec 5) (value : Word) :
    (self.setX r value).pc = self.pc := by
  unfold setX; split <;> rfl

/-- Only the register written changes, and not even that if it is `x0`. -/
theorem setX_x (self : RegisterBank) (r : BitVec 5) (value : Word) (r' : BitVec 5) :
    (self.setX r value).x r' = if r' = r ∧ r ≠ 0 then value else self.x r' := by
  by_cases h0 : r = 0
  · rw [setX, if_pos h0, if_neg fun h => h.2 h0]
  · rw [setX, if_neg h0]
    by_cases hr : r' = r
    · subst hr
      rw [if_pos ⟨rfl, h0⟩]
      simp [x]
    · have hne : r.toNat ≠ r'.toNat := fun h => hr (BitVec.eq_of_toNat_eq h.symm)
      simp [hr, x, hne]

/-- Reading a register through its `uint8_t` number. -/
theorem read_eq (self : RegisterBank) (r : BitVec 5) :
    self.read (r.setWidth 8) = .ok (self.x r) := by
  have hr : (r.setWidth 8).toNat = r.toNat := BitVec.toNat_setWidth_of_le (by decide)
  have hlt : (r.setWidth 8).toNat < 32 := hr ▸ r.isLt
  rw [read, dif_pos hlt]
  simp only [hr, x]

theorem write_eq (self : RegisterBank) {r : BitVec 5} (value : Word) (h : r ≠ 0) :
    self.write (r.setWidth 8) value = .ok (self.setX r value) := by
  have hr : (r.setWidth 8).toNat = r.toNat := BitVec.toNat_setWidth_of_le (by decide)
  have h8 : r.setWidth 8 ≠ (0 : BitVec 8) := by
    intro h0
    apply h
    apply BitVec.eq_of_toNat_eq
    rw [← hr, h0]
    rfl
  have hlt : (r.setWidth 8).toNat < 32 := hr ▸ r.isLt
  rw [write, setX, if_neg h8, dif_pos hlt, if_neg h]
  simp only [hr]

end RegisterBank

/-! ## the flat machine -/

/-- What `decode` makes of a word. -/
def decode (w : Word) : Except Exception DecodedInstructionVariant :=
  if opcode w = 0x33 then .ok (.rType ⟨w⟩)
  else if opcode w = 0x13 then .ok (.iType ⟨w⟩)
  else if opcode w = 0x23 then .ok (.sType ⟨w⟩)
  else if opcode w = 0x63 then .ok (.bType ⟨w⟩)
  else if opcode w = 0x37 then .ok (.uType ⟨w⟩)
  else if opcode w = 0x6F then .ok (.jType ⟨w⟩)
  else .error (.invalidArgument "Unsupported instruction format")

/-- The value of an R instruction, if its `funct3` is supported. -/
def aluR (w : Word) (x : Registers) : Option Word :=
  if funct3 w = 0 then
    some (if funct7 w = 0x20 then x (rs1 w) - x (rs2 w) else x (rs1 w) + x (rs2 w))
  else
    none

/-- The value of an I instruction: every `funct3` is supported. -/
def aluI (w : Word) (x : Registers) : Word :=
  let immediate := (immI w).signExtend 32
  match (funct3 w).toFin with
  | 0 => x (rs1 w) + immediate
  | 1 => x (rs1 w) <<< (immediate &&& 0x1F).toNat
  | 2 => if (x (rs1 w)).toInt < immediate.toInt then 1 else 0
  | 3 => if (x (rs1 w)).toNat < immediate.toNat then 1 else 0
  | 4 => x (rs1 w) ^^^ immediate
  | 5 => x (rs1 w) >>> (immediate &&& 0x1F).toNat
  | 6 => x (rs1 w) ||| immediate
  | 7 => x (rs1 w) &&& immediate

/-- Whether a B instruction branches, if its `funct3` is supported. -/
def takesB (w : Word) (x : Registers) : Option Bool :=
  if funct3 w = 0 then some (x (rs1 w) == x (rs2 w))
  else if funct3 w = 1 then some (x (rs1 w) != x (rs2 w))
  else none

/-- Only two values of `funct3` name a comparison. -/
theorem takesB_eq_none_iff (w : Word) (x : Registers) :
    takesB w x = none ↔ ¬ (funct3 w = 0 ∨ funct3 w = 1) := by
  unfold takesB
  split_ifs <;> simp_all

/-- The address a store writes to. -/
def storeAddress (w : Word) (x : Registers) : Word := x (rs1 w) + getImmediateS ⟨w⟩

structure Core where
  registerBank : RegisterBank
  mmu : MMU
  /-- What the execute stage's `result` was last assigned. -/
  result : ExecutionResult

/-- The part of a pipeline the flat machine keeps. -/
def Pipeline.core (self : Pipeline) : Core :=
  ⟨self.registerBank, self.mmu, self.executeStage.result⟩

namespace Core

def x (c : Core) : Registers := c.registerBank.x

def pc (c : Core) : Word := c.registerBank.pc

/-- The machine with `pc` past the fetched word. -/
def advance (c : Core) : Core :=
  { c with registerBank := c.registerBank.setPc (c.pc + 4) }

def setX (c : Core) (r : BitVec 5) (value : Word) : Core :=
  { c with registerBank := c.registerBank.setX r value }

def setAlu (c : Core) (value : Word) : Core :=
  { c with result := { c.result with aluResult := value } }

def setBranch (c : Core) (taken : Bool) (target : Word) : Core :=
  { c with result := { c.result with branchTaken := taken, branchTarget := target } }

/-- Execute: the exception thrown, if any, and the machine with the result
written so far. -/
def executed (c : Core) : DecodedInstructionVariant → Option Exception × Core
  | .rType inst =>
    match aluR inst.raw c.x with
    | some value => (none, c.setAlu value)
    | none => (some (.invalidArgument "Unsupported R-Type funct3"), c)
  | .iType inst => (none, c.setAlu (aluI inst.raw c.x))
  | .bType inst =>
    match takesB inst.raw c.x with
    | some taken => (none, c.setBranch taken (if taken then getImmediateB inst else 0))
    | none => (some (.invalidArgument "Unsupported B-Type funct3"), c)
  | .sType inst => (none, c.setAlu (c.x (rs1 inst.raw) + getImmediateS inst))
  | .uType inst => (none, c.setAlu (immU inst.raw ++ 0#12))
  | .jType inst =>
    (if getImmediateJ inst = 0 then some (.endOfProgramException "End of program reached")
      else none,
      c.setBranch true (c.pc + getImmediateJ inst))
  | .invalidType _ =>
    (some (.runtimeError "Decoded instruction is not set for execution"), c)

abbrev CoreM := EStateM Exception Core

def fetch : CoreM Word := do
  let w ← tries fun c => c.mmu.readWord c.pc
  modify advance
  return w

def perform (inst : DecodedInstructionVariant) : CoreM Unit := fun c =>
  match c.executed inst with
  | (none, c') => .ok () c'
  | (some e, c') => .error e c'

def execute (inst : DecodedInstructionVariant) : CoreM ExecutionResult := do
  perform inst
  reads (·.result)

def access (inst : DecodedInstructionVariant) (r : ExecutionResult) :
    CoreM MemoryAccessResult :=
  match inst with
  | .iType inst =>
    if opcode inst.raw = 0x03 then do
      let word ← tries fun c => c.mmu.readWord r.aluResult
      return ⟨some word, false⟩
    else
      return ⟨none, false⟩
  | .sType inst => do
    let data ← reads fun c => c.x (rs2 inst.raw)
    zoom mmu (fun mmu c => { c with mmu }) (MMU.writeWord r.aluResult data)
    return ⟨none, true⟩
  | _ => return ⟨none, false⟩

def retire (inst : DecodedInstructionVariant) (r : ExecutionResult) (m : MemoryAccessResult) :
    CoreM Unit :=
  match inst with
  | .rType inst => modify (·.setX (rd inst.raw) r.aluResult)
  | .iType inst =>
    if opcode inst.raw = 0x03 then
      match m.loadData with
      | some word => modify (·.setX (rd inst.raw) word)
      | none => return
    else
      modify (·.setX (rd inst.raw) r.aluResult)
  | .uType inst => modify (·.setX (rd inst.raw) r.aluResult)
  | .jType inst => modify (·.setX (rd inst.raw) r.aluResult)
  | _ => return

/-- Decode and execute a fetched word. -/
def decodeExecute (w : Word) : CoreM (DecodedInstructionVariant × ExecutionResult) := do
  let inst ← tries fun _ => decode w
  let r ← execute inst
  return (inst, r)

def toExecute : CoreM (DecodedInstructionVariant × ExecutionResult) := do
  let w ← fetch
  decodeExecute w

/-- What remains of the cycle once a word is fetched. -/
def finish (w : Word) : CoreM Unit := do
  let (inst, r) ← decodeExecute w
  let m ← access inst r
  retire inst r m

def cycle : CoreM Unit := do
  let (inst, r) ← toExecute
  let m ← access inst r
  retire inst r m

end Core

/-! ## the pipeline is the flat machine -/

/-- The pipeline program does to the core of the pipeline what `y` does, and
reports the same. -/
def Refines {α : Type} (x : PipelineM α) (y : Core.CoreM α) : Prop :=
  Coupled (fun s c => s.core = c) x y

@[simp] theorem run_readRegister (r : BitVec 5) (s : Pipeline) :
    (readRegister r).run s = .ok (s.registerBank.x r) s := by
  rw [readRegister, run_tries, RegisterBank.read_eq]

/-- A guarded register write is a write of the register bank. -/
@[simp] theorem run_writeRd (r : BitVec 5) (value : Word) (s : Pipeline) :
    (WriteBackStage.writeRd r value).run s =
      .ok () { s with registerBank := s.registerBank.setX r value } := by
  unfold WriteBackStage.writeRd
  by_cases h0 : r = 0
  · simp [h0, RegisterBank.setX]
  · rw [if_pos h0, writeRegister, EStateM.run_bind, run_tries,
      RegisterBank.write_eq _ value h0]
    rfl

theorem runFetch_core : Refines Pipeline.runFetch Core.fetch := by
  rintro s - rfl
  unfold Pipeline.runFetch FetchStage.process Core.fetch
  cases hread : s.mmu.readWord s.registerBank.pc with
  | ok w =>
      have hcore : s.core.mmu.readWord s.core.pc = .ok w := hread
      simp only [EStateM.run_bind, run_tries, run_reads, RegisterBank.getPc, hread, hcore,
        EStateM.run_modify, EStateM.run_pure]
      exact ⟨rfl, rfl⟩
  | error e =>
      have hcore : s.core.mmu.readWord s.core.pc = .error e := hread
      simp only [EStateM.run_bind, run_tries, run_reads, RegisterBank.getPc, hread, hcore]
      exact ⟨rfl, rfl⟩

/-- The opcode as decode compares it. -/
theorem getOpcode_eq_iff (w : Word) (n : BitVec 7) :
    (DecodedInstructionBase.mk w).getOpcode = n.setWidth 32 ↔ opcode w = n := by
  unfold DecodedInstructionBase.getOpcode opcode
  rw [← BitVec.toNat_inj, ← BitVec.toNat_inj, BitVec.toNat_setWidth_of_le (by decide),
    BitVec.toNat_setWidth_of_le (by decide)]

theorem runDecode_core (w : Word) :
    Refines (Pipeline.runDecode w) (tries fun _ => decode w) := by
  rintro s - rfl
  unfold Pipeline.runDecode DecodeStage.process
  have hR : (DecodedInstructionBase.mk w).getOpcode = InstructionFormat.rType.value ↔
      opcode w = 0x33 := getOpcode_eq_iff w 0x33
  have hI : (DecodedInstructionBase.mk w).getOpcode = InstructionFormat.iType.value ↔
      opcode w = 0x13 := getOpcode_eq_iff w 0x13
  have hS : (DecodedInstructionBase.mk w).getOpcode = InstructionFormat.sType.value ↔
      opcode w = 0x23 := getOpcode_eq_iff w 0x23
  have hB : (DecodedInstructionBase.mk w).getOpcode = InstructionFormat.bType.value ↔
      opcode w = 0x63 := getOpcode_eq_iff w 0x63
  have hU : (DecodedInstructionBase.mk w).getOpcode = InstructionFormat.uType.value ↔
      opcode w = 0x37 := getOpcode_eq_iff w 0x37
  have hJ : (DecodedInstructionBase.mk w).getOpcode = InstructionFormat.jType.value ↔
      opcode w = 0x6F := getOpcode_eq_iff w 0x6F
  simp only [EStateM.run_bind, EStateM.run_modify, run_reads, DecodeStage.setFetchedInstruction,
    run_tries, decode, hR, hI, hS, hB, hU, hJ]
  split_ifs <;> exact ⟨rfl, rfl⟩

/-! ### execute, format by format -/

theorem run_perform_of_none {inst : DecodedInstructionVariant} {c c' : Core}
    (h : c.executed inst = (none, c')) : (Core.perform inst).run c = .ok () c' := by
  show (match c.executed inst with | (none, c') => _ | (some e, c') => _) = _
  rw [h]

theorem run_perform_of_some {inst : DecodedInstructionVariant} {c c' : Core} {e : Exception}
    (h : c.executed inst = (some e, c')) : (Core.perform inst).run c = .error e c' := by
  show (match c.executed inst with | (none, c') => _ | (some e, c') => _) = _
  rw [h]

theorem processR_core (inst : DecodedInstruction .rType) :
    Refines (ExecuteStage.processR inst) (Core.perform (.rType inst)) := by
  rintro s - rfl
  unfold ExecuteStage.processR
  simp only [EStateM.run_bind, run_readRegister, ExecuteStage.setRs1Value,
    ExecuteStage.setRs2Value, ExecuteStage.assign, EStateM.run_modify]
  by_cases h0 : inst.funct3 = 0
  · have hf : funct3 inst.raw = 0 := h0
    rw [run_perform_of_none (by simp only [Core.executed, aluR, if_pos hf]; rfl), h0]
    exact ⟨rfl, rfl⟩
  · have hf : ¬ funct3 inst.raw = 0 := h0
    rw [run_perform_of_some (by simp only [Core.executed, aluR, if_neg hf]; rfl)]
    split
    · next h => exact absurd h h0
    · exact ⟨rfl, rfl⟩

/-- A `funct3` is one of eight. -/
theorem funct3_cases (f : BitVec 3) :
    f = 0 ∨ f = 1 ∨ f = 2 ∨ f = 3 ∨ f = 4 ∨ f = 5 ∨ f = 6 ∨ f = 7 := by
  revert f; decide

theorem processI_core (inst : DecodedInstruction .iType) :
    Refines (ExecuteStage.processI inst) (Core.perform (.iType inst)) := by
  rintro s - rfl
  unfold ExecuteStage.processI
  simp only [EStateM.run_bind, run_readRegister, ExecuteStage.setRs1Value,
    ExecuteStage.setImmediate, ExecuteStage.assign, EStateM.run_modify, getImmediateI_eq]
  rw [run_perform_of_none rfl]
  have hf : inst.funct3 = funct3 inst.raw := rfl
  rcases funct3_cases inst.funct3 with h | h | h | h | h | h | h | h <;> rw [h] at hf ⊢ <;>
    simp only [aluI, ← hf] <;> exact ⟨rfl, rfl⟩

theorem processB_core (inst : DecodedInstruction .bType) :
    Refines (ExecuteStage.processB inst) (Core.perform (.bType inst)) := by
  rintro s - rfl
  unfold ExecuteStage.processB
  simp only [EStateM.run_bind, run_readRegister, ExecuteStage.setRs1Value,
    ExecuteStage.setRs2Value, ExecuteStage.setImmediate, ExecuteStage.assign, EStateM.run_modify]
  by_cases h0 : inst.funct3 = 0
  · have hf : funct3 inst.raw = 0 := h0
    rw [run_perform_of_none (by simp only [Core.executed, takesB, if_pos hf]; rfl), h0]
    exact ⟨rfl, rfl⟩
  · by_cases h1 : inst.funct3 = 1
    · have hf0 : ¬ funct3 inst.raw = 0 := h0
      have hf : funct3 inst.raw = 1 := h1
      rw [run_perform_of_none (by simp only [Core.executed, takesB, if_neg hf0, if_pos hf]; rfl), h1]
      exact ⟨rfl, rfl⟩
    · have hf0 : ¬ funct3 inst.raw = 0 := h0
      have hf : ¬ funct3 inst.raw = 1 := h1
      rw [run_perform_of_some (by simp only [Core.executed, takesB, if_neg hf0, if_neg hf]; rfl)]
      split
      · next h => exact absurd h h0
      · next h => exact absurd h h1
      · exact ⟨rfl, rfl⟩

theorem processS_core (inst : DecodedInstruction .sType) :
    Refines (ExecuteStage.processS inst) (Core.perform (.sType inst)) := by
  rintro s - rfl
  unfold ExecuteStage.processS
  simp only [EStateM.run_bind, run_readRegister, ExecuteStage.setRs1Value,
    ExecuteStage.setRs2Value, ExecuteStage.setImmediate, ExecuteStage.assign, EStateM.run_modify]
  exact ⟨rfl, rfl⟩

theorem processU_core (inst : DecodedInstruction .uType) :
    Refines (ExecuteStage.processU inst) (Core.perform (.uType inst)) := by
  rintro s - rfl
  unfold ExecuteStage.processU
  simp only [EStateM.run_bind, ExecuteStage.setImmediate, ExecuteStage.assign,
    EStateM.run_modify, getImmediateU_eq]
  exact ⟨rfl, rfl⟩

/-- The end of a program is a jump by nothing: the pc the target is compared
with is the one it was computed from. -/
theorem processJ_core (inst : DecodedInstruction .jType) :
    Refines (ExecuteStage.processJ inst) (Core.perform (.jType inst)) := by
  rintro s - rfl
  unfold ExecuteStage.processJ
  simp only [EStateM.run_bind, run_reads, ExecuteStage.setImmediate, ExecuteStage.setBranchTaken,
    ExecuteStage.setBranchTarget, ExecuteStage.assign, EStateM.run_modify, RegisterBank.getPc]
  by_cases h0 : getImmediateJ inst = 0
  · rw [run_perform_of_some (by simp only [Core.executed, if_pos h0]; rfl)]
    have hpc : s.registerBank.pc + getImmediateJ inst = s.registerBank.pc := by
      rw [h0]; exact BitVec.add_zero _
    rw [if_pos hpc]
    exact ⟨rfl, rfl⟩
  · rw [run_perform_of_none (by simp only [Core.executed, if_neg h0]; rfl)]
    have hpc : ¬ s.registerBank.pc + getImmediateJ inst = s.registerBank.pc := by
      rwa [BitVec.add_right_eq_self]
    rw [if_neg hpc]
    exact ⟨rfl, rfl⟩

theorem process_core {inst : DecodedInstructionVariant} {s : Pipeline}
    (h : s.executeStage.decodedInstruction = inst) :
    outcome (ExecuteStage.process.run s) = outcome ((Core.perform inst).run s.core) ∧
      (final (ExecuteStage.process.run s)).core = final ((Core.perform inst).run s.core) := by
  unfold ExecuteStage.process
  rw [EStateM.run_bind, run_reads]
  simp only [h]
  cases inst with
  | invalidType inst => exact ⟨rfl, rfl⟩
  | rType inst => exact processR_core inst s _ rfl
  | iType inst => exact processI_core inst s _ rfl
  | sType inst => exact processS_core inst s _ rfl
  | bType inst => exact processB_core inst s _ rfl
  | uType inst => exact processU_core inst s _ rfl
  | jType inst => exact processJ_core inst s _ rfl

theorem runExecute_core (inst : DecodedInstructionVariant) :
    Refines (Pipeline.runExecute inst) (Core.execute inst) := by
  rintro s - rfl
  unfold Pipeline.runExecute Core.execute
  rw [EStateM.run_bind, EStateM.run_modify]
  have hinst : { s with executeStage := s.executeStage.setDecodedInstruction inst
      }.executeStage.decodedInstruction = inst := rfl
  obtain ⟨ho, hfin⟩ := process_core hinst
  exact Coupled.bind_at (R := fun s c => s.core = c) ho hfin
    fun _ => Coupled.reads fun s c hsc => congrArg Core.result hsc

/-- A store stores the source register, and reports no load. -/
theorem run_access_store (inst : DecodedInstruction .sType) (r : ExecutionResult) (c : Core) :
    (Core.access (.sType inst) r).run c =
      match (MMU.writeWord r.aluResult (c.x (rs2 inst.raw))).run c.mmu with
      | .ok _ mmu => .ok ⟨none, true⟩ { c with mmu }
      | .error e mmu => .error e { c with mmu } := by
  rw [Core.access, EStateM.run_bind, run_reads]
  simp only [EStateM.run_bind, run_zoom]
  generalize MMU.writeWord r.aluResult (c.x (rs2 inst.raw)) = writes
  cases writes.run c.mmu with
  | ok a m => rfl
  | error e m => rfl

theorem runMemoryAccess_core (inst : DecodedInstructionVariant) (r : ExecutionResult) :
    Refines (Pipeline.runMemoryAccess inst r) (Core.access inst r) := by
  rintro s - rfl
  unfold Pipeline.runMemoryAccess MemoryAccessStage.process
  simp only [EStateM.run_bind, EStateM.run_modify, run_reads, MemoryAccessStage.assign,
    MemoryAccessStage.setExecutionResult, MemoryAccessStage.setDecodedInstruction]
  cases inst with
  | iType inst =>
      by_cases hop : inst.opcode = 0x03
      · have hopc : opcode inst.raw = 0x03 := hop
        simp only [Core.access, if_pos hop, if_pos hopc]
        cases hread : s.mmu.readWord r.aluResult with
        | ok w =>
            have hcore : s.core.mmu.readWord r.aluResult = .ok w := hread
            simp only [EStateM.run_bind, run_tries, hread, hcore]
            exact ⟨rfl, rfl⟩
        | error e =>
            have hcore : s.core.mmu.readWord r.aluResult = .error e := hread
            simp only [EStateM.run_bind, run_tries, hread, hcore]
            exact ⟨rfl, rfl⟩
      · have hopc : ¬ opcode inst.raw = 0x03 := hop
        simp only [Core.access, if_neg hop, if_neg hopc]
        exact ⟨rfl, rfl⟩
  | sType inst =>
      have hdata : s.core.x (rs2 inst.raw) = s.registerBank.x inst.rs2 := rfl
      have hmmu : s.core.mmu = s.mmu := rfl
      rw [run_access_store, hdata, hmmu]
      simp only [DecodedInstructionVariant.getSType, EStateM.run_bind, run_tries,
        run_readRegister, run_zoom]
      generalize MMU.writeWord r.aluResult (s.registerBank.x inst.rs2) = writes
      cases writes.run s.mmu with
      | ok a m => exact ⟨rfl, rfl⟩
      | error e m => exact ⟨rfl, rfl⟩
  | _ => exact ⟨rfl, rfl⟩

theorem runWriteBack_core (inst : DecodedInstructionVariant) (r : ExecutionResult)
    (m : MemoryAccessResult) : Refines (Pipeline.runWriteBack inst r m) (Core.retire inst r m) := by
  rintro s - rfl
  unfold Pipeline.runWriteBack WriteBackStage.process
  simp only [EStateM.run_bind, EStateM.run_modify, run_reads, WriteBackStage.setExecutionResult,
    WriteBackStage.setMemoryAccessResult, WriteBackStage.setDecodedInstruction]
  cases inst with
  | iType inst =>
      by_cases hop : inst.opcode = 0x03
      · have hopc : opcode inst.raw = 0x03 := hop
        simp only [Core.retire, if_pos hop, if_pos hopc]
        cases m.loadData with
        | none => exact ⟨rfl, rfl⟩
        | some word => simp only [run_writeRd]; exact ⟨rfl, rfl⟩
      · have hopc : ¬ opcode inst.raw = 0x03 := hop
        simp only [Core.retire, if_neg hop, if_neg hopc, run_writeRd]
        exact ⟨rfl, rfl⟩
  | rType inst => simp only [run_writeRd]; exact ⟨rfl, rfl⟩
  | uType inst => simp only [run_writeRd]; exact ⟨rfl, rfl⟩
  | jType inst => simp only [run_writeRd]; exact ⟨rfl, rfl⟩
  | _ => exact ⟨rfl, rfl⟩

theorem runToExecute_core : Refines Pipeline.runToExecute Core.toExecute :=
  Coupled.bind runFetch_core fun w =>
    Coupled.bind (runDecode_core w) fun inst =>
      Coupled.bind (runExecute_core inst) fun _ => Coupled.pure _

/-- **The pipeline is the flat machine**: from every state, one cycle of the
pipeline reports what the flat machine reports and leaves its core where the
flat machine goes. -/
theorem runCycle_core : Refines Pipeline.runCycle Core.cycle :=
  Coupled.bind runToExecute_core fun p =>
    Coupled.bind (runMemoryAccess_core p.1 p.2) fun m => runWriteBack_core p.1 p.2 m

/-! ## what the sections look at -/

namespace Core

/-- Execute changes nothing but the result. -/
theorem executed_snd (c : Core) (inst : DecodedInstructionVariant) :
    (c.executed inst).2 = { c with result := (c.executed inst).2.result } := by
  unfold executed
  split
  · split <;> rfl
  · rfl
  · split <;> rfl
  all_goals rfl

/-- Write back moves two machines together if the writes of a register do. -/
theorem coupled_retire {R : Core → Core → Prop} (inst : DecodedInstructionVariant)
    (r : ExecutionResult) (m : MemoryAccessResult)
    (hset : ∀ rd value, Coupled R (modify (·.setX rd value) : CoreM Unit)
      (modify (·.setX rd value))) :
    Coupled R (retire inst r m) (retire inst r m) := by
  unfold retire
  split
  · exact hset _ _
  · split
    · split
      · exact hset _ _
      · exact .pure _
    · exact hset _ _
  · exact hset _ _
  · exact hset _ _
  · exact .pure _

end Core

/-! ## one equation per opcode -/

namespace Core

theorem cycle_eq : cycle = fetch >>= finish := by
  rw [cycle, toExecute, bind_assoc]
  rfl

/-- A fetch that fails changes nothing and ends the cycle. -/
theorem cycle_of_fetch_error {c : Core} {e : Exception} (h : c.mmu.readWord c.pc = .error e) :
    cycle.run c = .error e c := by
  rw [cycle_eq, fetch]
  simp only [EStateM.run_bind, run_tries, h]

/-- A fetched word is worked on with `pc` past it. -/
theorem cycle_of_fetch {c : Core} {w : Word} (h : c.mmu.readWord c.pc = .ok w) :
    cycle.run c = (finish w).run c.advance := by
  rw [cycle_eq, fetch]
  simp only [EStateM.run_bind, run_tries, h, EStateM.run_modify, EStateM.run_pure]

section Decode

variable {w : Word}

theorem decode_reg (h : opcode w = 0x33) : decode w = .ok (.rType ⟨w⟩) := by simp [decode, h]

theorem decode_imm (h : opcode w = 0x13) : decode w = .ok (.iType ⟨w⟩) := by simp [decode, h]

theorem decode_store (h : opcode w = 0x23) : decode w = .ok (.sType ⟨w⟩) := by simp [decode, h]

theorem decode_branch (h : opcode w = 0x63) : decode w = .ok (.bType ⟨w⟩) := by simp [decode, h]

theorem decode_upper (h : opcode w = 0x37) : decode w = .ok (.uType ⟨w⟩) := by simp [decode, h]

theorem decode_jump (h : opcode w = 0x6F) : decode w = .ok (.jType ⟨w⟩) := by simp [decode, h]

end Decode

theorem run_decodeExecute_of_none {w : Word} {inst : DecodedInstructionVariant} {c c' : Core}
    (hd : decode w = .ok inst) (h : c.executed inst = (none, c')) :
    (decodeExecute w).run c = .ok (inst, c'.result) c' := by
  unfold decodeExecute execute
  simp only [EStateM.run_bind, run_tries, hd, run_perform_of_none h, run_reads, EStateM.run_pure]

theorem run_decodeExecute_of_some {w : Word} {inst : DecodedInstructionVariant} {c c' : Core}
    {e : Exception} (hd : decode w = .ok inst) (h : c.executed inst = (some e, c')) :
    (decodeExecute w).run c = .error e c' := by
  unfold decodeExecute execute
  simp only [EStateM.run_bind, run_tries, hd, run_perform_of_some h]

section Finish

variable {w : Word} (c : Core)

theorem run_finish_reg (h : opcode w = 0x33) {v : Word} (hv : aluR w c.x = some v) :
    (finish w).run c = .ok () ((c.setAlu v).setX (rd w) v) := by
  have he : c.executed (.rType ⟨w⟩) = (none, c.setAlu v) := by simp only [executed, hv]
  rw [finish, run_bind_ok (run_decodeExecute_of_none (decode_reg h) he)]
  rfl

theorem run_finish_reg_error (h : opcode w = 0x33) (hf : funct3 w ≠ 0) :
    (finish w).run c = .error (.invalidArgument "Unsupported R-Type funct3") c := by
  have he : c.executed (.rType ⟨w⟩) =
      (some (.invalidArgument "Unsupported R-Type funct3"), c) := by
    simp only [executed, aluR, if_neg hf]
  rw [finish, run_bind_error (run_decodeExecute_of_some (decode_reg h) he)]

theorem run_finish_imm (h : opcode w = 0x13) :
    (finish w).run c =
      .ok () ((c.setAlu (aluI w c.x)).setX (rd w) (aluI w c.x)) := by
  have hload : ¬ opcode w = 0x03 := by rw [h]; decide
  rw [finish, run_bind_ok (run_decodeExecute_of_none (decode_imm h) rfl)]
  simp only [access, retire, if_neg hload]
  rfl

theorem run_finish_upper (h : opcode w = 0x37) :
    (finish w).run c = .ok () ((c.setAlu (immU w ++ 0#12)).setX (rd w) (immU w ++ 0#12)) := by
  rw [finish, run_bind_ok (run_decodeExecute_of_none (decode_upper h) rfl)]
  rfl

/-- A store is a word write of the MMU, and however the write ends the cycle
ends. -/
theorem run_finish_store (h : opcode w = 0x23) :
    (finish w).run c = (zoom mmu (fun mmu c => { c with mmu })
      (MMU.writeWord (storeAddress w c.x) (c.x (rs2 w)))).run
        (c.setAlu (storeAddress w c.x)) := by
  have he : c.executed (.sType ⟨w⟩) = (none, c.setAlu (storeAddress w c.x)) := rfl
  rw [finish, run_bind_ok (run_decodeExecute_of_none (decode_store h) he), EStateM.run_bind,
    run_access_store, run_zoom]
  have hx : (c.setAlu (storeAddress w c.x)).x = c.x := rfl
  have hr : (c.setAlu (storeAddress w c.x)).result.aluResult = storeAddress w c.x := rfl
  rw [hx, hr]
  generalize MMU.writeWord (storeAddress w c.x) (c.x (rs2 w)) = writes
  cases writes.run (c.setAlu (storeAddress w c.x)).mmu with
  | ok a m => rfl
  | error e m => rfl

theorem run_finish_branch (h : opcode w = 0x63) {taken : Bool} (ht : takesB w c.x = some taken) :
    (finish w).run c =
      .ok () (c.setBranch taken (if taken then getImmediateB ⟨w⟩ else 0)) := by
  have he : c.executed (.bType ⟨w⟩) =
      (none, c.setBranch taken (if taken then getImmediateB ⟨w⟩ else 0)) := by
    simp only [executed, ht]
  rw [finish, run_bind_ok (run_decodeExecute_of_none (decode_branch h) he)]
  rfl

theorem run_finish_branch_error (h : opcode w = 0x63) (ht : takesB w c.x = none) :
    (finish w).run c = .error (.invalidArgument "Unsupported B-Type funct3") c := by
  have he : c.executed (.bType ⟨w⟩) =
      (some (.invalidArgument "Unsupported B-Type funct3"), c) := by
    simp only [executed, ht]
  rw [finish, run_bind_error (run_decodeExecute_of_some (decode_branch h) he)]

/-- A jump writes the `alu_result` of an earlier cycle to its destination. -/
theorem run_finish_jump (h : opcode w = 0x6F) (hi : getImmediateJ ⟨w⟩ ≠ 0) :
    (finish w).run c = .ok ()
      ((c.setBranch true (c.pc + getImmediateJ ⟨w⟩)).setX (rd w) c.result.aluResult) := by
  have he : c.executed (.jType ⟨w⟩) =
      (none, c.setBranch true (c.pc + getImmediateJ ⟨w⟩)) := by
    simp only [executed, if_neg hi]
  rw [finish, run_bind_ok (run_decodeExecute_of_none (decode_jump h) he)]
  rfl

theorem run_finish_jump_end (h : opcode w = 0x6F) (hi : getImmediateJ ⟨w⟩ = 0) :
    (finish w).run c = .error (.endOfProgramException "End of program reached")
      (c.setBranch true (c.pc + getImmediateJ ⟨w⟩)) := by
  have he : c.executed (.jType ⟨w⟩) =
      (some (.endOfProgramException "End of program reached"),
        c.setBranch true (c.pc + getImmediateJ ⟨w⟩)) := by
    simp only [executed, if_pos hi]
  rw [finish, run_bind_error (run_decodeExecute_of_some (decode_jump h) he)]

theorem run_finish_unsupported (h : decode w =
    .error (.invalidArgument "Unsupported instruction format")) :
    (finish w).run c = .error (.invalidArgument "Unsupported instruction format") c := by
  have he : (decodeExecute w).run c =
      .error (.invalidArgument "Unsupported instruction format") c := by
    unfold decodeExecute
    simp only [EStateM.run_bind, run_tries, h]
  rw [finish, run_bind_error he]

end Finish

/-- The exceptions a cycle raises of its own, once the word is fetched. -/
inductive Rejection : Exception → Prop where
  | format : Rejection (.invalidArgument "Unsupported instruction format")
  | rFunct3 : Rejection (.invalidArgument "Unsupported R-Type funct3")
  | bFunct3 : Rejection (.invalidArgument "Unsupported B-Type funct3")
  | endOfProgram : Rejection (.endOfProgramException "End of program reached")

/-- A word has one of the six opcodes or is not decoded. -/
theorem opcode_cases (w : Word) :
    opcode w = 0x33 ∨ opcode w = 0x13 ∨ opcode w = 0x23 ∨ opcode w = 0x63 ∨ opcode w = 0x37 ∨
      opcode w = 0x6F ∨
      decode w = .error (.invalidArgument "Unsupported instruction format") := by
  unfold decode
  split_ifs <;> simp_all

/-- **Everything a cycle can do with a fetched word**: write one register,
write none, reject the word, or store a word. -/
theorem finish_cases (w : Word) (c : Core) :
    (∃ v result, (finish w).run c = .ok () (({ c with result } : Core).setX (rd w) v)) ∨
    (∃ result, (finish w).run c = .ok () { c with result }) ∨
    (∃ e result, Rejection e ∧ (finish w).run c = .error e { c with result }) ∨
    (opcode w = 0x23 ∧ (finish w).run c = (zoom mmu (fun mmu c => { c with mmu })
      (MMU.writeWord (storeAddress w c.x) (c.x (rs2 w)))).run
        (c.setAlu (storeAddress w c.x))) := by
  rcases opcode_cases w with h | h | h | h | h | h | h
  · by_cases hf : funct3 w = 0
    · exact .inl ⟨_, _, run_finish_reg c h (if_pos hf)⟩
    · exact .inr (.inr (.inl ⟨_, _, .rFunct3, run_finish_reg_error c h hf⟩))
  · exact .inl ⟨_, _, run_finish_imm c h⟩
  · exact .inr (.inr (.inr ⟨h, run_finish_store c h⟩))
  · cases ht : takesB w c.x with
    | some taken => exact .inr (.inl ⟨_, run_finish_branch c h ht⟩)
    | none =>
        exact .inr (.inr (.inl ⟨_, _, .bFunct3, run_finish_branch_error c h ht⟩))
  · exact .inl ⟨_, _, run_finish_upper c h⟩
  · by_cases hi : getImmediateJ ⟨w⟩ = 0
    · exact .inr (.inr (.inl ⟨_, _, .endOfProgram, run_finish_jump_end c h hi⟩))
    · exact .inl ⟨_, _, run_finish_jump c h hi⟩
  · exact .inr (.inr (.inl ⟨_, _, .format, run_finish_unsupported c h⟩))

/-- However it ends, the rest of a cycle leaves `pc` where the fetch put it. -/
theorem pc_finish (w : Word) (c : Core) : (final ((finish w).run c)).pc = c.pc := by
  rcases finish_cases w c with ⟨v, r, h⟩ | ⟨r, h⟩ | ⟨e, r, -, h⟩ | ⟨-, h⟩
  · rw [h]; exact RegisterBank.setX_pc _ _ _
  · rw [h]; rfl
  · rw [h]; rfl
  · rw [h, final_zoom]; rfl

/-- The rest of a cycle leaves the MMU as it is or makes one word write. -/
theorem mmu_finish (w : Word) (c : Core) : (final ((finish w).run c)).mmu = c.mmu ∨
    ∃ va data, (final ((finish w).run c)).mmu = final ((MMU.writeWord va data).run c.mmu) := by
  rcases finish_cases w c with ⟨v, r, h⟩ | ⟨r, h⟩ | ⟨e, r, -, h⟩ | ⟨-, h⟩
  · rw [h]; exact .inl rfl
  · rw [h]; exact .inl rfl
  · rw [h]; exact .inl rfl
  · rw [h, final_zoom]
    exact .inr ⟨storeAddress w c.x, c.x (rs2 w), rfl⟩

end Core

/-! ## cycles of the pipeline -/

/-- A cycle of the flat machine that returns is one of the pipeline. -/
theorem exists_runCycle_ok {s : Pipeline} {c : Core} (h : Core.cycle.run s.core = .ok () c) :
    ∃ s', Pipeline.runCycle.run s = .ok () s' ∧ s'.core = c :=
  runCycle_core.exists_ok rfl h

/-- A cycle of the flat machine that throws is one of the pipeline. -/
theorem exists_runCycle_error {s : Pipeline} {c : Core} {e : Exception}
    (h : Core.cycle.run s.core = .error e c) :
    ∃ s', Pipeline.runCycle.run s = .error e s' ∧ s'.core = c :=
  runCycle_core.exists_error rfl h

/-- The core a cycle of the pipeline ends in. -/
theorem core_runCycle (s : Pipeline) :
    (final (Pipeline.runCycle.run s)).core = final (Core.cycle.run s.core) :=
  (runCycle_core s _ rfl).2

namespace Pipeline

/-- The word at `pc`: 0 where it cannot be fetched. -/
def word (self : Pipeline) : Word :=
  match self.mmu.readWord self.registerBank.pc with
  | .ok w => w
  | .error _ => 0

theorem word_eq {s : Pipeline} {w : Word} (h : s.mmu.readWord s.registerBank.pc = .ok w) :
    s.word = w := by
  rw [word, h]

/-- A cycle that cannot fetch throws what the fetch threw and changes no
register, not `pc` and no memory. -/
theorem runCycle_of_fetch_error {s : Pipeline} {e : Exception}
    (h : s.mmu.readWord s.registerBank.pc = .error e) :
    ∃ s', runCycle.run s = .error e s' ∧ s'.core = s.core :=
  exists_runCycle_error (Core.cycle_of_fetch_error (c := s.core) h)

/-- A cycle that returns has fetched its word. -/
theorem fetch_of_runCycle_ok {s : Pipeline} (h : outcome (runCycle.run s) = .ok ()) :
    s.mmu.readWord s.registerBank.pc = .ok s.word := by
  cases hread : s.mmu.readWord s.registerBank.pc with
  | ok w => rw [word_eq hread]
  | error e =>
      obtain ⟨s', hrun, -⟩ := runCycle_of_fetch_error hread
      rw [hrun] at h
      contradiction

/-- The core a cycle ends in, its word once fetched. -/
theorem core_runCycle_of_fetch {s : Pipeline} {w : Word}
    (h : s.mmu.readWord s.registerBank.pc = .ok w) :
    (final (runCycle.run s)).core = final ((Core.finish w).run s.core.advance) := by
  rw [core_runCycle, Core.cycle_of_fetch (c := s.core) h]

/-- What a cycle reports, its word once fetched. -/
theorem outcome_runCycle_of_fetch {s : Pipeline} {w : Word}
    (h : s.mmu.readWord s.registerBank.pc = .ok w) :
    outcome (runCycle.run s) = outcome ((Core.finish w).run s.core.advance) := by
  rw [(runCycle_core s _ rfl).1, Core.cycle_of_fetch (c := s.core) h]

/-- A cycle leaves the MMU as it is or makes one word write. -/
theorem mmu_runCycle (s : Pipeline) : (final (runCycle.run s)).mmu = s.mmu ∨
    ∃ va data, (final (runCycle.run s)).mmu = final ((MMU.writeWord va data).run s.mmu) := by
  cases hread : s.mmu.readWord s.registerBank.pc with
  | ok w =>
      have hmmu := congrArg Core.mmu (core_runCycle_of_fetch hread)
      have hfinish := Core.mmu_finish w s.core.advance
      rw [← hmmu] at hfinish
      exact hfinish
  | error e =>
      obtain ⟨s', hrun, hcore⟩ := runCycle_of_fetch_error hread
      rw [hrun]
      exact .inl (congrArg Core.mmu hcore)

/-- A cycle that fetches its word leaves `pc` four further, however it ends. -/
theorem pc_runCycle_of_fetch {s : Pipeline} {w : Word}
    (h : s.mmu.readWord s.registerBank.pc = .ok w) :
    (final (runCycle.run s)).registerBank.pc = s.registerBank.pc + 4 := by
  have hpc := congrArg Core.pc (core_runCycle_of_fetch h)
  rw [Core.pc_finish] at hpc
  exact hpc

end Pipeline

namespace CPU

/-- A cycle of the CPU reports what the cycle of its pipeline reports. -/
theorem outcome_runCycle (self : CPU) :
    outcome (runCycle.run self) = outcome (Pipeline.runCycle.run self.pipeline) :=
  outcome_zoom _ _ _ _

/-- So what holds of an exception that the one throws, holds of one that the
other throws. -/
theorem runCycle_throws_iff (self : CPU) (P : Exception → Prop) :
    (∃ e self', runCycle.run self = .error e self' ∧ P e) ↔
      ∃ e, outcome (Pipeline.runCycle.run self.pipeline) = .error e ∧ P e := by
  rw [← outcome_runCycle]
  constructor
  · rintro ⟨e, self', hrun, hP⟩
    exact ⟨e, by rw [hrun, outcome_error], hP⟩
  · rintro ⟨e, he, hP⟩
    exact ⟨e, _, eq_error_of_outcome he, hP⟩

end CPU

end VirtuV
