import Mathlib.Data.List.Basic
import Mathlib.Order.Defs.Unbundled

/-!
# VirtuV.Lib.Interference

Noninterference between domains that act on one state.

A schedule says which domain acts when, and how; every action reports to the
domain that took it.  A flow policy says from which domains a domain may learn.
Noninterference is that a domain's reports, and those of all it may learn from,
stay as they are when the actions of the others are taken out of the schedule
(`purge`).  It follows by induction from two conditions on single actions
(`Unwinding`), whatever the interleaving.
-/

namespace Interference

variable {ι α ρ σ : Type}

section Runs

variable (step : ι → α → σ → ρ × σ)

/-- What the actions of a schedule report, each with the domain that took it,
and the state they end in. -/
def run : List (ι × α) → σ → List (ι × ρ) × σ
  | [], s => ([], s)
  | (i, a) :: as, s => ((i, (step i a s).1) :: (run as (step i a s).2).1, (run as (step i a s).2).2)

end Runs

variable {step : ι → α → σ → ρ × σ} (flows : ι → ι → Prop) [DecidableRel flows]

/-- What is left of a schedule or of its reports for `i`. -/
def purge {β : Type} (i : ι) (as : List (ι × β)) : List (ι × β) := as.filter (flows ·.1 i)

theorem purge_cons_of_flows {β : Type} {i j : ι} (h : flows j i) (b : β) (as : List (ι × β)) :
    purge flows i ((j, b) :: as) = (j, b) :: purge flows i as :=
  List.filter_cons_of_pos (by simpa using h)

theorem purge_cons_of_not_flows {β : Type} {i j : ι} (h : ¬ flows j i) (b : β)
    (as : List (ι × β)) : purge flows i ((j, b) :: as) = purge flows i as :=
  List.filter_cons_of_neg (by simpa using h)

/-- `R` relates the states that `i` cannot tell apart, as far as the allowed
actions go: an action of a domain that may not flow to `i` leaves the state
related to what it was, and one of a domain that may reports the same on
related states and leaves related states. -/
structure Unwinding (step : ι → α → σ → ρ × σ) (flows : ι → ι → Prop) (allowed : ι → α → Prop)
    (i : ι) (R : σ → σ → Prop) : Prop where
  respects : ∀ {j a s t}, ¬ flows j i → allowed j a → R s t → R (step j a s).2 t
  consistent : ∀ {j a s t}, flows j i → allowed j a → R s t →
    (step j a s).1 = (step j a t).1 ∧ R (step j a s).2 (step j a t).2

variable {flows}

/-- **Noninterference** from unwinding: taking the actions of the domains that
may not flow to `i` out of the schedule changes nothing `i` could tell. -/
theorem Unwinding.run_purge {allowed : ι → α → Prop} {i : ι} {R : σ → σ → Prop}
    (h : Unwinding step flows allowed i R) (as : List (ι × α))
    (has : ∀ a ∈ as, allowed a.1 a.2) {s t : σ} (hst : R s t) :
    purge flows i (run step as s).1 = (run step (purge flows i as) t).1 ∧
      R (run step as s).2 (run step (purge flows i as) t).2 := by
  induction as generalizing s t with
  | nil => exact ⟨rfl, hst⟩
  | cons a as ih =>
      obtain ⟨j, a⟩ := a
      obtain ⟨ha, has⟩ := List.forall_mem_cons.mp has
      by_cases hj : flows j i
      · obtain ⟨hreport, hnext⟩ := h.consistent hj ha hst
        obtain ⟨hreports, hend⟩ := ih has hnext
        rw [purge_cons_of_flows flows hj, run, run, purge_cons_of_flows flows hj, hreport, hreports]
        exact ⟨rfl, hend⟩
      · rw [purge_cons_of_not_flows flows hj, run, purge_cons_of_not_flows flows hj]
        exact ih has (h.respects hj ha hst)

end Interference
