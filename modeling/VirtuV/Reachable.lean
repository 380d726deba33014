import VirtuV.Cycle

/-!
# VirtuV.Reachable

The states a CPU can get into, and the exceptions its cycles can raise there.

A CPU starts fresh and goes on by loading programs and running cycles, whatever
they return or throw; its memory may hold anything.  `x0` is zero in every such
state, and every exception of a cycle is a fault of memory or a rejection of the
word fetched: the errors the register bank and the stages keep for states that
should not arise do not arise.
-/

namespace VirtuV

open Stateful

/-! ## what a cycle can raise -/

/-- The errors of the register bank, the decoded instruction and the stages
that no instruction should be able to raise. -/
def internalErrors : List Exception :=
  [.invalidArgument "Cannot write to x0 (read-only register)",
    .outOfRange "Register index out of range",
    .runtimeError "Attempting to access an invalid instruction format",
    .runtimeError "Decoded instruction is not set for execution",
    .invalidArgument "Unsupported instruction format for execution stage",
    .badVariantAccess]

/-- Every exception of the register bank is an internal error. -/
theorem internalError_of_read {bank : RegisterBank} {reg : BitVec 8} {e : Exception}
    (h : bank.read reg = .error e) : e ∈ internalErrors := by
  unfold RegisterBank.read at h
  split at h
  · contradiction
  · obtain rfl := Except.error.inj h
    decide

theorem internalError_of_write {bank : RegisterBank} {reg : BitVec 8} {value : Word}
    {e : Exception} (h : bank.write reg value = .error e) : e ∈ internalErrors := by
  unfold RegisterBank.write at h
  split at h
  · obtain rfl := Except.error.inj h
    decide
  · split at h
    · contradiction
    · obtain rfl := Except.error.inj h
      decide

/-- So is that of the invalid format's opcode. -/
theorem internalError_of_getOpcode {inst : DecodedInstruction .invalidType} {e : Exception}
    (h : inst.getOpcode = .error e) : e ∈ internalErrors := by
  obtain rfl := Except.error.inj h
  decide

/-- So is a bad variant access. -/
theorem internalError_of_getSType {inst : DecodedInstructionVariant} {e : Exception}
    (h : inst.getSType = .error e) : e ∈ internalErrors := by
  unfold DecodedInstructionVariant.getSType at h
  split at h
  · contradiction
  · obtain rfl := Except.error.inj h
    decide

/-- No memory fault and no rejection is an internal error. -/
theorem not_internalError {e : Exception} (h : e.MemoryFault ∨ Core.Rejection e) :
    e ∉ internalErrors := by
  rcases h with hfault | hrej
  · intro hmem
    simp only [internalErrors, List.mem_cons, List.not_mem_nil, or_false] at hmem
    rcases hmem with rfl | rfl | rfl | rfl | rfl | rfl
    all_goals simp [Exception.MemoryFault] at hfault
  · cases hrej <;> decide

namespace Core

/-- What the rest of a cycle raises is a memory fault or a rejection. -/
theorem error_finish {w : Word} {c : Core} {e : Exception}
    (h : outcome ((finish w).run c) = .error e) : e.MemoryFault ∨ Rejection e := by
  rcases finish_cases w c with ⟨v, r, hrun⟩ | ⟨r, hrun⟩ | ⟨e', r, hrej, hrun⟩ | ⟨-, hrun⟩
  · rw [hrun] at h; contradiction
  · rw [hrun] at h; contradiction
  · rw [hrun] at h
    obtain rfl := Except.error.inj h
    exact .inr hrej
  · rw [hrun, outcome_zoom] at h
    exact .inl (MMU.memoryFault_of_writeWord h)

/-- The rest of a cycle does not change `x0`. -/
theorem x0_finish (w : Word) (c : Core) : (final ((finish w).run c)).x 0 = c.x 0 := by
  rcases finish_cases w c with ⟨v, r, h⟩ | ⟨r, h⟩ | ⟨e, r, -, h⟩ | ⟨-, h⟩
  · rw [h]
    refine (RegisterBank.setX_x _ _ _ _).trans ?_
    rw [if_neg fun hx => hx.2 hx.1.symm]
    rfl
  · rw [h]; rfl
  · rw [h]; rfl
  · rw [h, final_zoom]; rfl

end Core

namespace Pipeline

/-- What a cycle raises is a memory fault or a rejection of its word. -/
theorem error_runCycle {s : Pipeline} {e : Exception}
    (h : outcome (runCycle.run s) = .error e) : e.MemoryFault ∨ Core.Rejection e := by
  rcases MMU.readWord_cases s.mmu s.registerBank.pc with ⟨w, hw, -⟩ | ⟨e', hfault, he, -⟩
  · rw [outcome_runCycle_of_fetch hw] at h
    exact Core.error_finish h
  · obtain ⟨s', hrun, -⟩ := runCycle_of_fetch_error he
    rw [hrun] at h
    obtain rfl := Except.error.inj h
    exact .inl hfault

/-- A cycle does not change `x0`. -/
theorem x0_runCycle (s : Pipeline) :
    (final (runCycle.run s)).registerBank.x 0 = s.registerBank.x 0 := by
  cases hread : s.mmu.readWord s.registerBank.pc with
  | ok w =>
      have hx := congrArg (Core.x · 0) (core_runCycle_of_fetch hread)
      exact hx.trans (Core.x0_finish w _)
  | error e =>
      obtain ⟨s', hrun, hcore⟩ := runCycle_of_fetch_error hread
      have hx := congrArg (Core.x · 0) hcore
      rw [hrun]
      exact hx

end Pipeline

/-! ## the reachable states -/

/-- The states of a CPU from its construction on: programs are loaded, cycles
run, and memory holds whatever was put there. -/
inductive Reachable (memorySize : Nat) (garbage : Uninitialized) : CPU → Prop where
  | new : Reachable memorySize garbage (.new memorySize garbage)
  | loadProgram {self : CPU} (file : ProgramFile) (h : Reachable memorySize garbage self) :
      Reachable memorySize garbage (self.loadProgram file).2
  | runCycle {self : CPU} (h : Reachable memorySize garbage self) :
      Reachable memorySize garbage (final (CPU.runCycle.run self))
  | setMemory {self : CPU} (physicalMemory : PhysicalMemory)
      (h : Reachable memorySize garbage self) :
      Reachable memorySize garbage { self with pipeline := { self.pipeline with
        mmu := { self.pipeline.mmu with physicalMemory } } }

/-- Loading a program does not touch the registers. -/
theorem x_loadProgram (file : ProgramFile) (self : CPU) :
    (self.loadProgram file).2.pipeline.registerBank.x = self.pipeline.registerBank.x := by
  cases file with
  | unopened => rfl
  | oversized => rfl
  | unallocated => rfl
  | unreadable => rfl
  | contents bytes =>
      rw [CPU.loadProgram]
      cases (CPU.copyToMemory 0 bytes).run self.pipeline.mmu with
      | ok a mmu => rfl
      | error e mmu => rfl

variable {memorySize : Nat} {garbage : Uninitialized} {self : CPU}

theorem Reachable.x0 (h : Reachable memorySize garbage self) :
    self.pipeline.registerBank.x 0 = 0 := by
  induction h with
  | new => simp [CPU.new, Pipeline.new, RegisterBank.new, RegisterBank.x]
  | loadProgram file _ ih => rw [x_loadProgram, ih]
  | runCycle _ ih => rw [CPU.runCycle, final_zoom, Pipeline.x0_runCycle, ih]
  | setMemory _ _ ih => exact ih

/-- **Safety**: in every reachable state `x0` reads 0, and every exception a
cycle raises is a fault of memory or a rejection of the word it fetched, never
an internal error. -/
theorem reachable_safe (h : Reachable memorySize garbage self) :
    self.getRegister 0 = .ok 0 ∧
    ∀ e, outcome (CPU.runCycle.run self) = .error e →
      (e.MemoryFault ∨ Core.Rejection e) ∧ e ∉ internalErrors := by
  constructor
  · have hread := RegisterBank.read_eq self.pipeline.registerBank 0
    rw [h.x0] at hread
    exact hread
  · intro e he
    rw [CPU.outcome_runCycle] at he
    have hkind := Pipeline.error_runCycle he
    exact ⟨hkind, not_internalError hkind⟩

/-- A fresh CPU that loads `jal x0, 0` and runs it past the end. -/
theorem reachable_safe_jump :
    (final (CPU.runCycle.run (CPU.boot 8 ⟨0, 0, 0⟩ [0x6F, 0x00, 0x00, 0x00]))).getRegister 0 =
      .ok 0 := by
  have hnew : Reachable 8 ⟨0, 0, 0⟩ (.new 8 ⟨0, 0, 0⟩) := .new
  exact (reachable_safe (.runCycle (.loadProgram (.contents [0x6F, 0x00, 0x00, 0x00]) hnew))).1

end VirtuV
