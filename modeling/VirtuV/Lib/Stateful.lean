import Mathlib.Logic.Function.Iterate
import Mathlib.Order.Defs.Unbundled

/-!
# VirtuV.Lib.Stateful

Programs that carry a state through exceptions.  `EStateM ε σ α` keeps the
state reached when an exception is raised, which is how a throwing method of
an object behaves: whatever it assigned before the throw stays assigned.

* **primitives** — `reads` (look at the state), `tries` (consult a fallible
  query that changes nothing), `zoom` (run on one component of the state);
* **`Keeps`** — a relation between the state before a run and the state after
  it, however the run ends;
* **`ThrowsWithin`** — an invariant under which only some exceptions are
  thrown;
* **`Coupled`** — two programs that, from related states, report the same
  outcome and end in related states: refinement when the relation is a
  projection, noninterference when it is an indistinguishability;
* **`SimulatedBy`** — a program that, from related states, does what another
  does wherever that one returns, and may return where it throws;
* **runs** — a program executed again and again, exceptions included.

Nothing here depends on what the state or the exceptions are.
-/

namespace Stateful

variable {ε σ τ α β : Type}

/-! ## results -/

/-- The state a run ends in, whether it returns or throws. -/
def final : EStateM.Result ε σ α → σ
  | .ok _ s => s
  | .error _ s => s

/-- What a run reports to its caller: the value returned or the exception. -/
def outcome : EStateM.Result ε σ α → Except ε α
  | .ok a _ => .ok a
  | .error e _ => .error e

@[simp] theorem final_ok (a : α) (s : σ) : final (.ok a s : EStateM.Result ε σ α) = s := rfl

@[simp] theorem final_error (e : ε) (s : σ) :
    final (.error e s : EStateM.Result ε σ α) = s := rfl

@[simp] theorem outcome_ok (a : α) (s : σ) :
    outcome (.ok a s : EStateM.Result ε σ α) = .ok a := rfl

@[simp] theorem outcome_error (e : ε) (s : σ) :
    outcome (.error e s : EStateM.Result ε σ α) = .error e := rfl

/-- A result that reports a value is that value, and the state it ends in. -/
theorem eq_ok_of_outcome {r : EStateM.Result ε σ α} {a : α} (h : outcome r = .ok a) :
    r = .ok a (final r) := by
  cases r with
  | ok b s =>
      obtain rfl : b = a := Except.ok.inj h
      rfl
  | error e s => contradiction

/-- A result that reports an exception is that exception, and the state it
ends in. -/
theorem eq_error_of_outcome {r : EStateM.Result ε σ α} {e : ε} (h : outcome r = .error e) :
    r = .error e (final r) := by
  cases r with
  | ok a s => contradiction
  | error e' s =>
      obtain rfl : e' = e := Except.error.inj h
      rfl

/-! ## primitives -/

/-- Look at the state. -/
def reads (p : σ → α) : EStateM ε σ α := fun s => .ok (p s) s

/-- Consult a fallible query of the state; the state does not change. -/
def tries (p : σ → Except ε α) : EStateM ε σ α := fun s =>
  match p s with
  | .ok a => .ok a s
  | .error e => .error e s

/-- Run `x` on the component `get s`, storing back whatever it leaves there. -/
def zoom (get : σ → τ) (put : τ → σ → σ) (x : EStateM ε τ α) : EStateM ε σ α := fun s =>
  match x.run (get s) with
  | .ok a t => .ok a (put t s)
  | .error e t => .error e (put t s)

@[simp] theorem run_reads (p : σ → α) (s : σ) :
    (reads p : EStateM ε σ α).run s = .ok (p s) s := rfl

theorem run_tries (p : σ → Except ε α) (s : σ) :
    (tries p).run s = match p s with
      | .ok a => .ok a s
      | .error e => .error e s := rfl

theorem run_tries_error {p : σ → Except ε α} {s : σ} {e : ε} (h : p s = .error e) :
    (tries p).run s = .error e s := by
  rw [run_tries, h]

theorem run_zoom (get : σ → τ) (put : τ → σ → σ) (x : EStateM ε τ α) (s : σ) :
    (zoom get put x).run s = match x.run (get s) with
      | .ok a t => .ok a (put t s)
      | .error e t => .error e (put t s) := rfl

/-- A zoomed run reports what the run on the component reports. -/
@[simp] theorem outcome_zoom (get : σ → τ) (put : τ → σ → σ) (x : EStateM ε τ α) (s : σ) :
    outcome ((zoom get put x).run s) = outcome (x.run (get s)) := by
  rw [run_zoom]; cases x.run (get s) <;> rfl

/-- A zoomed run only stores the component back. -/
@[simp] theorem final_zoom (get : σ → τ) (put : τ → σ → σ) (x : EStateM ε τ α) (s : σ) :
    final ((zoom get put x).run s) = put (final (x.run (get s))) s := by
  rw [run_zoom]; cases x.run (get s) <;> rfl

/-! ## running a sequence -/

theorem run_bind_ok {x : EStateM ε σ α} {f : α → EStateM ε σ β} {s t : σ} {a : α}
    (h : x.run s = .ok a t) : (x >>= f).run s = (f a).run t := by
  rw [EStateM.run_bind, h]

theorem run_bind_error {x : EStateM ε σ α} {f : α → EStateM ε σ β} {s t : σ} {e : ε}
    (h : x.run s = .error e t) : (x >>= f).run s = .error e t := by
  rw [EStateM.run_bind, h]

/-- Wrapping up the value returned changes no state. -/
theorem final_bind_pure (x : EStateM ε σ α) (f : α → β) (s : σ) :
    final ((x >>= fun a => pure (f a)).run s) = final (x.run s) := by
  rw [EStateM.run_bind]
  cases x.run s <;> rfl

/-- Consulting two queries in a row, the second on what the first answered. -/
theorem tries_bind (p : σ → Except ε α) (q : α → σ → Except ε β) :
    tries (fun s => p s >>= fun a => q a s) = tries p >>= fun a => tries (q a) := by
  funext s
  show (tries fun s => p s >>= fun a => q a s).run s = (tries p >>= fun a => tries (q a)).run s
  rw [EStateM.run_bind, run_tries, run_tries]
  cases p s with
  | ok a => rfl
  | error e => rfl

theorem tries_pure (a : α) : tries (fun _ => .ok a) = (pure a : EStateM ε σ α) := rfl

/-! ## what every run keeps -/

/-- However `x` ends, the state after it is related to the state before it. -/
def Keeps (R : σ → σ → Prop) (x : EStateM ε σ α) : Prop := ∀ s, R s (final (x.run s))

namespace Keeps

variable {R : σ → σ → Prop}

/-- What a program keeps of a component, it keeps of the whole. -/
theorem zoom {Q : τ → τ → Prop} {get : σ → τ} {put : τ → σ → σ} {x : EStateM ε τ α}
    (hx : Keeps Q x) (h : ∀ s u, Q (get s) u → R s (put u s)) :
    Keeps R (zoom get put x) := by
  intro s
  rw [final_zoom]
  exact h s _ (hx (get s))

variable [IsPreorder σ R]

theorem pure (a : α) : Keeps R (Pure.pure a : EStateM ε σ α) :=
  fun s => refl s

theorem tries (p : σ → Except ε α) : Keeps R (tries p) := by
  intro s
  rw [run_tries]
  cases p s <;> exact refl s

theorem bind {x : EStateM ε σ α} {f : α → EStateM ε σ β}
    (hx : Keeps R x) (hf : ∀ a, Keeps R (f a)) : Keeps R (x >>= f) := by
  intro s
  have h := hx s
  rw [EStateM.run_bind]
  cases hxs : x.run s with
  | ok a t => rw [hxs] at h; exact IsTrans.trans _ _ _ h (hf a t)
  | error e t => rw [hxs] at h; exact h

end Keeps

/-! ## what a run can throw -/

/-- From a state in `I`, `x` ends in `I`, and what it throws satisfies `P`. -/
def ThrowsWithin (I : σ → Prop) (P : ε → Prop) (x : EStateM ε σ α) : Prop :=
  ∀ s, I s → I (final (x.run s)) ∧ ∀ e, outcome (x.run s) = .error e → P e

namespace ThrowsWithin

variable {I : σ → Prop} {P : ε → Prop}

theorem pure (a : α) : ThrowsWithin I P (Pure.pure a : EStateM ε σ α) := by
  refine fun s hs => ⟨hs, fun e he => ?_⟩
  contradiction

theorem tries {p : σ → Except ε α} (h : ∀ s, I s → ∀ e, p s = .error e → P e) :
    ThrowsWithin I P (tries p) := by
  intro s hs
  rw [run_tries]
  cases hp : p s with
  | ok a => exact ⟨hs, fun e he => by contradiction⟩
  | error e' =>
      refine ⟨hs, fun e he => ?_⟩
      obtain rfl : e' = e := Except.error.inj he
      exact h s hs e' hp

theorem bind {x : EStateM ε σ α} {f : α → EStateM ε σ β} (hx : ThrowsWithin I P x)
    (hf : ∀ a, ThrowsWithin I P (f a)) : ThrowsWithin I P (x >>= f) := by
  intro s hs
  obtain ⟨hend, hthrown⟩ := hx s hs
  cases hxs : x.run s with
  | ok a t => rw [hxs] at hend; rw [run_bind_ok hxs]; exact hf a t hend
  | error e t =>
      rw [hxs] at hend hthrown
      rw [run_bind_error hxs]
      refine ⟨hend, fun e' he' => hthrown e' ?_⟩
      rw [outcome_error] at he' ⊢
      exact congrArg _ (Except.error.inj he')

end ThrowsWithin

/-! ## programs that move together -/

/-- From related states, `x` and `y` report the same outcome and end in
related states. -/
def Coupled (R : σ → τ → Prop) (x : EStateM ε σ α) (y : EStateM ε τ α) : Prop :=
  ∀ s t, R s t → outcome (x.run s) = outcome (y.run t) ∧ R (final (x.run s)) (final (y.run t))

namespace Coupled

variable {R : σ → τ → Prop}

theorem pure (a : α) : Coupled R (Pure.pure a : EStateM ε σ α) (Pure.pure a) :=
  fun _ _ h => ⟨rfl, h⟩

theorem throw (e : ε) : Coupled R (throw e : EStateM ε σ α) (throw e) :=
  fun _ _ h => ⟨rfl, h⟩

theorem reads {p : σ → α} {q : τ → α} (h : ∀ s t, R s t → p s = q t) :
    Coupled R (reads p : EStateM ε σ α) (reads q) :=
  fun s t hst => ⟨congrArg Except.ok (h s t hst), hst⟩

theorem tries {p : σ → Except ε α} {q : τ → Except ε α} (h : ∀ s t, R s t → p s = q t) :
    Coupled R (tries p) (tries q) := by
  intro s t hst
  rw [run_tries, run_tries, h s t hst]
  cases q t <;> exact ⟨rfl, hst⟩

theorem modify {f : σ → σ} {g : τ → τ} (h : ∀ s t, R s t → R (f s) (g t)) :
    Coupled R (modify f : EStateM ε σ PUnit) (modify g) :=
  fun s t hst => ⟨rfl, h s t hst⟩

/-- Programs that move a component together move the whole together. -/
theorem zoom {υ ω : Type} {Q : υ → ω → Prop} {get : σ → υ} {put : υ → σ → σ} {get' : τ → ω}
    {put' : ω → τ → τ} {x : EStateM ε υ α} {y : EStateM ε ω α} (hxy : Coupled Q x y)
    (hget : ∀ s t, R s t → Q (get s) (get' t))
    (hput : ∀ s t u v, R s t → Q u v → R (put u s) (put' v t)) :
    Coupled R (zoom get put x) (zoom get' put' y) := by
  intro s t hst
  obtain ⟨ho, hfin⟩ := hxy _ _ (hget s t hst)
  rw [outcome_zoom, outcome_zoom, final_zoom, final_zoom]
  exact ⟨ho, hput s t _ _ hst hfin⟩

/-- Sequences whose first halves match from `s` and `t`, and whose second
halves move together, match from `s` and `t`. -/
theorem bind_at {x : EStateM ε σ α} {y : EStateM ε τ α} {f : α → EStateM ε σ β}
    {g : α → EStateM ε τ β} {s : σ} {t : τ} (ho : outcome (x.run s) = outcome (y.run t))
    (hfin : R (final (x.run s)) (final (y.run t))) (hf : ∀ a, Coupled R (f a) (g a)) :
    outcome ((x >>= f).run s) = outcome ((y >>= g).run t) ∧
      R (final ((x >>= f).run s)) (final ((y >>= g).run t)) := by
  rw [EStateM.run_bind, EStateM.run_bind]
  cases hxs : x.run s <;> cases hyt : y.run t <;> rw [hxs, hyt] at ho hfin
  case ok.ok a s' b t' =>
    obtain rfl : a = b := Except.ok.inj ho
    exact hf a s' t' hfin
  case ok.error => contradiction
  case error.ok => contradiction
  case error.error => exact ⟨congrArg _ (Except.error.inj ho), hfin⟩

theorem bind {x : EStateM ε σ α} {y : EStateM ε τ α} {f : α → EStateM ε σ β}
    {g : α → EStateM ε τ β} (hx : Coupled R x y) (hf : ∀ a, Coupled R (f a) (g a)) :
    Coupled R (x >>= f) (y >>= g) := by
  intro s t hst
  obtain ⟨ho, hfin⟩ := hx s t hst
  exact bind_at ho hfin hf

/-- Where the one program returns, so does the other. -/
theorem exists_ok {x : EStateM ε σ α} {y : EStateM ε τ α} (hxy : Coupled R x y) {s : σ} {t t' : τ}
    {a : α} (hst : R s t) (h : y.run t = .ok a t') : ∃ s', x.run s = .ok a s' ∧ R s' t' := by
  obtain ⟨ho, hfin⟩ := hxy s t hst
  rw [h] at ho hfin
  exact ⟨_, eq_ok_of_outcome ho, hfin⟩

/-- Where the one program throws, so does the other. -/
theorem exists_error {x : EStateM ε σ α} {y : EStateM ε τ α} (hxy : Coupled R x y) {s : σ}
    {t t' : τ} {e : ε} (hst : R s t) (h : y.run t = .error e t') :
    ∃ s', x.run s = .error e s' ∧ R s' t' := by
  obtain ⟨ho, hfin⟩ := hxy s t hst
  rw [h] at ho hfin
  exact ⟨_, eq_error_of_outcome ho, hfin⟩

end Coupled

/-! ## a program that returns where another does -/

/-- From related states, where `x` returns, `y` returns the same and they end
in related states.  Where `x` throws, `y` may do anything. -/
def SimulatedBy (R : σ → τ → Prop) (x : EStateM ε σ α) (y : EStateM ε τ α) : Prop :=
  ∀ s t, R s t → ∀ a s', x.run s = .ok a s' → ∃ t', y.run t = .ok a t' ∧ R s' t'

/-- Programs that move together return together. -/
theorem Coupled.simulatedBy {R : σ → τ → Prop} {x : EStateM ε σ α} {y : EStateM ε τ α}
    (hxy : Coupled R x y) : SimulatedBy R x y := by
  intro s t hst a s' h
  obtain ⟨ho, hfin⟩ := hxy s t hst
  rw [h] at ho hfin
  exact ⟨_, eq_ok_of_outcome ho.symm, hfin⟩

namespace SimulatedBy

variable {R : σ → τ → Prop}

/-- A query that answers wherever another does, and the same. -/
theorem tries {p : σ → Except ε α} {q : τ → Except ε α}
    (h : ∀ s t, R s t → ∀ a, p s = .ok a → q t = .ok a) :
    SimulatedBy R (tries p) (tries q) := by
  intro s t hst a s' hrun
  rw [run_tries] at hrun
  cases hp : p s with
  | ok b =>
      rw [hp] at hrun
      cases hrun
      exact ⟨t, by rw [run_tries, h s t hst _ hp], hst⟩
  | error e =>
      rw [hp] at hrun
      contradiction

theorem zoom {υ ω : Type} {Q : υ → ω → Prop} {get : σ → υ} {put : υ → σ → σ} {get' : τ → ω}
    {put' : ω → τ → τ} {x : EStateM ε υ α} {y : EStateM ε ω α} (hxy : SimulatedBy Q x y)
    (hget : ∀ s t, R s t → Q (get s) (get' t))
    (hput : ∀ s t u v, R s t → Q u v → R (put u s) (put' v t)) :
    SimulatedBy R (zoom get put x) (zoom get' put' y) := by
  intro s t hst a s' hrun
  rw [run_zoom] at hrun
  cases hx : x.run (get s) with
  | ok b u =>
      rw [hx] at hrun
      cases hrun
      obtain ⟨v, hy, huv⟩ := hxy _ _ (hget s t hst) _ _ hx
      exact ⟨put' v t, by rw [run_zoom, hy], hput s t u v hst huv⟩
  | error e u =>
      rw [hx] at hrun
      contradiction

theorem bind {x : EStateM ε σ α} {y : EStateM ε τ α} {f : α → EStateM ε σ β}
    {g : α → EStateM ε τ β} (hx : SimulatedBy R x y) (hf : ∀ a, SimulatedBy R (f a) (g a)) :
    SimulatedBy R (x >>= f) (y >>= g) := by
  intro s t hst b s' hrun
  cases hxs : x.run s with
  | ok a u =>
      rw [run_bind_ok hxs] at hrun
      obtain ⟨v, hy, huv⟩ := hx s t hst a u hxs
      rw [run_bind_ok hy]
      exact hf a u v huv b s' hrun
  | error e u =>
      rw [run_bind_error hxs] at hrun
      contradiction

/-- Where the one program returns, the other returns the same. -/
theorem of_ok {x : EStateM ε σ α} {y : EStateM ε τ α} (hxy : SimulatedBy R x y) {s : σ} {t : τ}
    {a : α} (hst : R s t) (h : outcome (x.run s) = .ok a) :
    outcome (y.run t) = .ok a ∧ R (final (x.run s)) (final (y.run t)) := by
  obtain ⟨t', hy, hR⟩ := hxy s t hst a _ (eq_ok_of_outcome h)
  rw [hy]
  exact ⟨rfl, hR⟩

/-- What holds of the programs on a projection of the state holds of programs
that do nothing else to it. -/
theorem of_coupled {Q : τ → τ → Prop} {f : σ → τ} {x : EStateM ε σ α} {y : EStateM ε τ α}
    (hxy : Coupled (fun s t => f s = t) x y) (hy : SimulatedBy Q y y) :
    SimulatedBy (fun s s' => Q (f s) (f s')) x x := by
  intro s s' hss a u hrun
  obtain ⟨ho, hfin⟩ := hxy s _ rfl
  obtain ⟨ho', hfin'⟩ := hxy s' _ rfl
  rw [hrun] at ho hfin
  obtain ⟨hok, hQ⟩ := hy.of_ok hss ho.symm
  rw [← hfin, ← hfin'] at hQ
  exact ⟨_, eq_ok_of_outcome (ho'.trans hok), hQ⟩

end SimulatedBy

/-! ## runs -/

/-- The state after `n` executions of `x`, each started where the previous one
ended, whether it returned or threw. -/
def after (x : EStateM ε σ α) (n : Nat) (s : σ) : σ := (fun s => final (x.run s))^[n] s

@[simp] theorem after_zero (x : EStateM ε σ α) (s : σ) : after x 0 s = s := rfl

theorem after_succ (x : EStateM ε σ α) (n : Nat) (s : σ) :
    after x (n + 1) s = final (x.run (after x n s)) := by
  rw [after, Function.iterate_succ_apply']; rfl

theorem after_succ' (x : EStateM ε σ α) (n : Nat) (s : σ) :
    after x (n + 1) s = after x n (final (x.run s)) := rfl

/-- Runs of `m` and of `n` executions add up. -/
theorem after_add (x : EStateM ε σ α) (m n : Nat) (s : σ) :
    after x (m + n) s = after x n (after x m s) := by
  rw [Nat.add_comm, after, Function.iterate_add_apply]; rfl

/-- A part of the state that no execution changes, as long as it is what it
is, stays what it is. -/
theorem after_of_stuck {x : EStateM ε σ α} {f : σ → β} {s : σ}
    (h : ∀ t, f t = f s → f (final (x.run t)) = f s) (n : Nat) : f (after x n s) = f s := by
  induction n with
  | zero => rfl
  | succ n ih => rw [after_succ]; exact h _ ih

/-- What every execution keeps of a part of the state, a run keeps of it. -/
theorem Keeps.after {R : τ → τ → Prop} [IsPreorder τ R] {f : σ → τ} {x : EStateM ε σ α}
    (hx : Keeps (fun s s' => R (f s) (f s')) x) (n : Nat) (s : σ) :
    R (f s) (f (after x n s)) := by
  induction n with
  | zero => exact refl (f s)
  | succ n ih => rw [after_succ]; exact IsTrans.trans _ _ _ ih (hx _)

/-- Run after run on a component is run after run of the whole. -/
theorem get_after_zoom {get : σ → τ} {put : τ → σ → σ} (h : ∀ t s, get (put t s) = t)
    (x : EStateM ε τ α) (n : Nat) (s : σ) :
    get (after (zoom get put x) n s) = after x n (get s) := by
  induction n with
  | zero => rfl
  | succ n ih => rw [after_succ, after_succ, final_zoom, h, ih]

/-- The state after executing the programs of a list one after the other,
whether each returned or threw. -/
def afterAll (xs : List (EStateM ε σ Unit)) (s : σ) : σ :=
  xs.foldl (fun s x => final (x.run s)) s

/-- What the programs of a list report one after the other, each started where
the one before it returned or threw, and the state they end in. -/
def runAll : List (EStateM ε σ α) → σ → List (Except ε α) × σ
  | [], s => ([], s)
  | x :: xs, s =>
    let (os, t) := runAll xs (final (x.run s))
    (outcome (x.run s) :: os, t)

/-- The first `n` executions of `x` all return. -/
def Completes (x : EStateM ε σ α) (n : Nat) (s : σ) : Prop :=
  ∀ k < n, ∃ a, outcome (x.run (after x k s)) = .ok a

/-- The first execution returns, and from where it ends the others do. -/
theorem completes_succ (x : EStateM ε σ α) (n : Nat) (s : σ) :
    Completes x (n + 1) s ↔ (∃ a, outcome (x.run s) = .ok a) ∧ Completes x n (final (x.run s)) := by
  constructor
  · intro h
    exact ⟨h 0 (Nat.succ_pos n), fun k hk => h (k + 1) (Nat.succ_lt_succ hk)⟩
  · rintro ⟨hfirst, hrest⟩ k hk
    cases k with
    | zero => exact hfirst
    | succ k => exact hrest k (Nat.lt_of_succ_lt_succ hk)

/-- Where not all of the first executions return, there is a first that
throws. -/
theorem exists_first_error {x : EStateM ε σ α} {m : Nat} {s : σ} (h : ¬ Completes x m s) :
    ∃ n < m, Completes x n s ∧ ∃ e t, x.run (after x n s) = .error e t := by
  induction m with
  | zero => exact absurd (fun k hk => absurd hk (Nat.not_lt_zero k)) h
  | succ m ih =>
      by_cases hm : Completes x m s
      · refine ⟨m, Nat.lt_succ_self m, hm, ?_⟩
        cases hrun : x.run (after x m s) with
        | error e t => exact ⟨e, t, rfl⟩
        | ok a t =>
            have hall : Completes x (m + 1) s :=
              Nat.forall_lt_succ_right.mpr ⟨hm, a, by rw [hrun, outcome_ok]⟩
            exact absurd hall h
      · obtain ⟨n, hn, hfirst⟩ := ih hm
        exact ⟨n, Nat.lt_succ_of_lt hn, hfirst⟩

/-- What every program of a list keeps, the list keeps. -/
theorem Keeps.afterAll {R : σ → σ → Prop} [IsPreorder σ R] {xs : List (EStateM ε σ Unit)}
    (hxs : ∀ x ∈ xs, Keeps R x) (s : σ) : R s (afterAll xs s) := by
  induction xs generalizing s with
  | nil => exact refl s
  | cons x xs ih =>
      have hhead := hxs x List.mem_cons_self s
      have htail := ih (fun y hy => hxs y (List.mem_cons_of_mem x hy)) (final (x.run s))
      exact IsTrans.trans _ _ _ hhead htail

/-- Lists of programs that move together report the same and end together. -/
theorem Coupled.runAll {ι : Type} {R : σ → τ → Prop} {x : ι → EStateM ε σ α}
    {y : ι → EStateM ε τ α} (hxy : ∀ i, Coupled R (x i) (y i)) (is : List ι) {s : σ} {t : τ}
    (hst : R s t) :
    (runAll (is.map x) s).1 = (runAll (is.map y) t).1 ∧
      R (runAll (is.map x) s).2 (runAll (is.map y) t).2 := by
  induction is generalizing s t with
  | nil => exact ⟨rfl, hst⟩
  | cons i is ih =>
      obtain ⟨ho, hfin⟩ := hxy i s t hst
      obtain ⟨hos, hend⟩ := ih hfin
      exact ⟨congrArg₂ List.cons ho hos, hend⟩

/-- Programs that move together do so over runs of any length. -/
theorem Coupled.after {R : σ → τ → Prop} {x : EStateM ε σ α} {y : EStateM ε τ α}
    (hxy : Coupled R x y) (n : Nat) {s : σ} {t : τ} (hst : R s t) :
    R (after x n s) (after y n t) := by
  induction n with
  | zero => exact hst
  | succ n ih => rw [after_succ, after_succ]; exact (hxy _ _ ih).2

/-- As long as the one program returns, so does the other, from states related
all along. -/
theorem SimulatedBy.after {R : σ → τ → Prop} {x : EStateM ε σ α} {y : EStateM ε τ α}
    (hxy : SimulatedBy R x y) {n : Nat} {s : σ} {t : τ} (hst : R s t) (h : Completes x n s) :
    Completes y n t ∧ ∀ k ≤ n, R (after x k s) (after y k t) := by
  have hR : ∀ k ≤ n, R (Stateful.after x k s) (Stateful.after y k t) := by
    intro k hk
    induction k with
    | zero => exact hst
    | succ k ih =>
        obtain ⟨a, ha⟩ := h k hk
        rw [after_succ, after_succ]
        exact (hxy.of_ok (ih (Nat.le_of_lt hk)) ha).2
  refine ⟨fun k hk => ?_, hR⟩
  obtain ⟨a, ha⟩ := h k hk
  exact ⟨a, (hxy.of_ok (hR k (Nat.le_of_lt hk)) ha).1⟩

end Stateful
