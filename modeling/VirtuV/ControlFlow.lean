import VirtuV.Cycle

/-!
# VirtuV.ControlFlow

Where a cycle goes next.

The execute stage records `branch_taken` and `branch_target`, and no later
stage reads them: every cycle that fetches its word leaves `pc` four further.
`nextPc` is where the instruction set sends control, by the offset
`get_immediate` returns, and `FallsThrough` the exact condition under which
the two agree, for one cycle and over a run.
-/

namespace VirtuV

open Stateful
open Rv32i (Registers opcode)

/-! ## where control should go -/

/-- The word branches, by the comparison its `funct3` names. -/
def Branches (w : Word) (x : Registers) : Prop := opcode w = 0x63 ∧ takesB w x = some true

instance (w : Word) (x : Registers) : Decidable (Branches w x) :=
  inferInstanceAs (Decidable (_ ∧ _))

/-- The address after the word `w` at `p`. -/
def nextPc (w : Word) (x : Registers) (p : Word) : Word :=
  if Branches w x then p + getImmediateB ⟨w⟩
  else if opcode w = 0x6F then p + getImmediateJ ⟨w⟩
  else p + 4

/-- The word does not branch or jump, or does so to the next word. -/
def FallsThrough (w : Word) (x : Registers) : Prop :=
  (Branches w x → getImmediateB ⟨w⟩ = 4) ∧ (opcode w = 0x6F → getImmediateJ ⟨w⟩ = 4)

/-- Going four further is right exactly for the words that fall through. -/
theorem add_four_eq_nextPc_iff (w : Word) (x : Registers) (p : Word) :
    p + 4 = nextPc w x p ↔ FallsThrough w x := by
  unfold nextPc FallsThrough
  by_cases hb : Branches w x
  · have hj : ¬ opcode w = 0x6F := by rw [hb.1]; decide
    rw [if_pos hb, BitVec.add_right_inj]
    exact ⟨fun h => ⟨fun _ => h.symm, fun h' => absurd h' hj⟩, fun h => (h.1 hb).symm⟩
  · rw [if_neg hb]
    by_cases hj : opcode w = 0x6F
    · rw [if_pos hj, BitVec.add_right_inj]
      exact ⟨fun h => ⟨fun h' => absurd h' hb, fun _ => h.symm⟩, fun h => (h.2 hj).symm⟩
    · rw [if_neg hj]
      exact ⟨fun _ => ⟨fun h => absurd h hb, fun h => absurd h hj⟩, fun _ => rfl⟩

namespace Pipeline

/-- The address after the word at `pc`. -/
def nextPc (self : Pipeline) : Word :=
  VirtuV.nextPc self.word self.registerBank.x self.registerBank.pc

/-- The word at `pc` falls through. -/
def FallsThrough (self : Pipeline) : Prop :=
  VirtuV.FallsThrough self.word self.registerBank.x

/-! ## one cycle -/

/-- A cycle that returns has gone where the instruction set sends it exactly
when its word falls through. -/
theorem pc_runCycle_eq_nextPc_iff {s : Pipeline} (h : outcome (runCycle.run s) = .ok ()) :
    (final (runCycle.run s)).registerBank.pc = s.nextPc ↔ s.FallsThrough := by
  rw [pc_runCycle_of_fetch (fetch_of_runCycle_ok h)]
  exact add_four_eq_nextPc_iff _ _ _

/-! ## a run -/

/-- The addresses the instruction set prescribes for a run from `s`: from each
one, the word and the registers of that cycle decide the next. -/
def prescribed (s : Pipeline) : Nat → Word
  | 0 => s.registerBank.pc
  | k + 1 =>
    VirtuV.nextPc (after runCycle k s).word (after runCycle k s).registerBank.x (s.prescribed k)

/-- A run keeps to the prescribed addresses exactly as long as every word it
executes falls through. -/
theorem pc_after_eq_prescribed_iff {s : Pipeline} {n : Nat} (h : Completes runCycle n s) :
    (∀ k ≤ n, (after runCycle k s).registerBank.pc = s.prescribed k) ↔
      ∀ k < n, (after runCycle k s).FallsThrough := by
  have hstep : ∀ k < n, (after runCycle (k + 1) s).registerBank.pc = (after runCycle k s).nextPc ↔
      (after runCycle k s).FallsThrough := by
    intro k hk
    obtain ⟨⟨⟩, hok⟩ := h k hk
    rw [after_succ]
    exact pc_runCycle_eq_nextPc_iff hok
  constructor
  · intro hpc k hk
    rw [← hstep k hk, hpc (k + 1) hk, prescribed, ← hpc k (Nat.le_of_lt hk)]
    rfl
  · intro hfalls k
    -- along the run: each address is the prescribed one, so the next is too
    induction k with
    | zero => exact fun _ => rfl
    | succ k ih =>
        intro hk
        rw [(hstep k hk).mpr (hfalls k hk), prescribed, ← ih (Nat.le_of_lt hk)]
        rfl

end Pipeline

/-- **Control flow**: a cycle that returns, and a run all of whose cycles
return, go where the instruction set sends them exactly when each word executed
is no taken branch and no jump, or one whose immediate is 4. -/
theorem runCycle_controlFlow (s : Pipeline) :
    (outcome (Pipeline.runCycle.run s) = .ok () →
      ((final (Pipeline.runCycle.run s)).registerBank.pc = s.nextPc ↔ s.FallsThrough)) ∧
    (∀ n, Completes Pipeline.runCycle n s →
      ((∀ k ≤ n, (after Pipeline.runCycle k s).registerBank.pc = s.prescribed k) ↔
        ∀ k < n, (after Pipeline.runCycle k s).FallsThrough)) :=
  ⟨Pipeline.pc_runCycle_eq_nextPc_iff, fun _ h => Pipeline.pc_after_eq_prescribed_iff h⟩

/-- A taken branch whose immediate is 8, at address 0 of a fresh CPU. -/
def branchByEight : Pipeline := (CPU.boot 8 ⟨0, 0, 0⟩ [0x63, 0x08, 0x00, 0x00]).pipeline

/-- A jump whose immediate is 8, at address 0 of a fresh CPU. -/
def jumpByEight : Pipeline := (CPU.boot 8 ⟨0, 0, 0⟩ [0x6F, 0x00, 0x00, 0x01]).pipeline

/-- Both go to 4 instead of 8. -/
theorem runCycle_ignores_target :
    (outcome (Pipeline.runCycle.run branchByEight) = .ok () ∧ branchByEight.nextPc = 8 ∧
      (final (Pipeline.runCycle.run branchByEight)).registerBank.pc = 4) ∧
    (outcome (Pipeline.runCycle.run jumpByEight) = .ok () ∧ jumpByEight.nextPc = 8 ∧
      (final (Pipeline.runCycle.run jumpByEight)).registerBank.pc = 4) ∧
    ¬ ∀ s, outcome (Pipeline.runCycle.run s) = .ok () →
      (final (Pipeline.runCycle.run s)).registerBank.pc = s.nextPc := by
  have hbranch : outcome (Pipeline.runCycle.run branchByEight) = .ok () ∧
      branchByEight.nextPc = 8 ∧
      (final (Pipeline.runCycle.run branchByEight)).registerBank.pc = 4 := by decide +kernel
  refine ⟨hbranch, by decide +kernel, fun h => ?_⟩
  have hpc := h branchByEight hbranch.1
  rw [hbranch.2.1, hbranch.2.2] at hpc
  contradiction

end VirtuV
