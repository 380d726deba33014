import Mathlib.Data.Nat.Nth
import VirtuV.Lib.Stateful

/-!
# VirtuV.Lib.Resumed

Runs taken up again after an exception.

A program executed again and again, exceptions included, makes one endless run.
Who stops at each exception and then goes on sees it in pieces: each piece ends
with an execution that throws, and the next begins where that one left off.
-/

namespace Stateful

variable {ε σ α : Type}

/-- The execution after the first `n` throws. -/
def Throws (x : EStateM ε σ α) (s : σ) (n : Nat) : Prop :=
  ∃ e t, x.run (after x n s) = .error e t

/-- How many executions the first `m` pieces of a run take. -/
noncomputable def pieces (x : EStateM ε σ α) (s : σ) : Nat → Nat
  | 0 => 0
  | m + 1 => Nat.nth (Throws x s) m + 1

variable {x : EStateM ε σ α} {s : σ}

/-- An execution that does not throw returns. -/
theorem exists_ok_of_not_throws {n : Nat} (h : ¬ Throws x s n) :
    ∃ a, outcome (x.run (after x n s)) = .ok a := by
  cases hrun : x.run (after x n s) with
  | ok a t => exact ⟨a, rfl⟩
  | error e t => exact absurd ⟨e, t, hrun⟩ h

/-- The pieces follow each other. -/
theorem pieces_le_nth (hinf : (Set.ofPred (Throws x s)).Infinite) (m : Nat) :
    pieces x s m ≤ Nat.nth (Throws x s) m := by
  cases m with
  | zero => exact Nat.zero_le _
  | succ m => exact (Nat.nth_lt_nth hinf).mpr (Nat.lt_succ_self m)

/-- No piece is empty. -/
theorem le_pieces (hinf : (Set.ofPred (Throws x s)).Infinite) (m : Nat) : m ≤ pieces x s m := by
  induction m with
  | zero => exact Nat.zero_le _
  | succ m ih => exact Nat.succ_le_succ (Nat.le_trans ih (pieces_le_nth hinf m))

/-- **A piece**: from where one ends, executions return up to the last of the
next, which throws. -/
theorem completes_piece (hinf : (Set.ofPred (Throws x s)).Infinite) (m : Nat) :
    Completes x (Nat.nth (Throws x s) m - pieces x s m) (after x (pieces x s m) s) ∧
      Throws x (after x (pieces x s m) s) (Nat.nth (Throws x s) m - pieces x s m) := by
  have hle := pieces_le_nth hinf m
  constructor
  · intro k hk
    rw [← after_add]
    apply exists_ok_of_not_throws
    intro hthrows
    obtain ⟨n, -, hn⟩ := Nat.exists_lt_card_nth_eq hthrows
    have hlt : Nat.nth (Throws x s) n < Nat.nth (Throws x s) m := by omega
    have hnm : n < m := (Nat.nth_lt_nth hinf).mp hlt
    cases m with
    | zero => exact absurd hnm (Nat.not_lt_zero n)
    | succ m =>
        have hbefore : Nat.nth (Throws x s) n ≤ Nat.nth (Throws x s) m :=
          (Nat.nth_le_nth hinf).mpr (Nat.le_of_lt_succ hnm)
        rw [pieces] at hn
        omega
  · rw [Throws, ← after_add, Nat.add_sub_cancel' hle]
    exact Nat.nth_mem_of_infinite hinf m

/-- A piece that throws at once is one execution long. -/
theorem nth_eq_pieces (hinf : (Set.ofPred (Throws x s)).Infinite) {m : Nat}
    (h : Throws x s (pieces x s m)) : Nat.nth (Throws x s) m = pieces x s m := by
  by_contra hne
  have hlong : 0 < Nat.nth (Throws x s) m - pieces x s m := by
    have hle := pieces_le_nth hinf m
    omega
  obtain ⟨a, ha⟩ := (completes_piece hinf m).1 0 hlong
  obtain ⟨e, t, hrun⟩ := h
  rw [after_zero, hrun] at ha
  contradiction

end Stateful
