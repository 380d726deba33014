import VirtuV.Lib.Stateful
import Mathlib.Data.List.Induction
import Mathlib.Data.Set.Function

/-!
# VirtuV.Lib.FlatMemory

A flat memory: a map from addresses to cells, and accesses that a fixed guard
lets through or refuses.

* **accesses** — `read` and `write` one cell, `readAll` and `writeAll` several
  in order, up to the first one refused;
* **replay** — the memory after a log of writes, cell by cell: what was written
  there last, or what was there at first;
* **representation** — a memory kept elsewhere, behind a translation of the
  addresses.  While the translation is injective, writing one cell there is
  writing one cell here.

Nothing here depends on what addresses, cells or exceptions are.
-/

namespace FlatMemory

open Stateful

variable {α β ε : Type}

/-- The exception an access to an address is refused with, if it is; the flag
says whether the access is a write. -/
abbrev Guard (ε α : Type) := Bool → α → Option ε

/-! ## accesses -/

/-- Throw what the guard refuses the access with. -/
def check (guard : Guard ε α) (isWrite : Bool) (a : α) : EStateM ε (α → β) Unit :=
  tries fun _ =>
    match guard isWrite a with
    | some e => .error e
    | none => .ok ()

def read (guard : Guard ε α) (a : α) : EStateM ε (α → β) β := do
  check guard false a
  reads (· a)

/-- Read several cells in order. -/
def readAll (guard : Guard ε α) : List α → EStateM ε (α → β) (List β)
  | [] => return []
  | a :: as => do
    let b ← read guard a
    let bs ← readAll guard as
    return b :: bs

section Write

variable [DecidableEq α]

def write (guard : Guard ε α) (a : α) (b : β) : EStateM ε (α → β) Unit := do
  check guard true a
  modify (Function.update · a b)

/-- Write several cells in order. -/
def writeAll (guard : Guard ε α) : List (α × β) → EStateM ε (α → β) Unit
  | [] => return
  | (a, b) :: rest => do
    write guard a b
    writeAll guard rest

end Write

section Run

variable {guard : Guard ε α} {a : α} (m : α → β)

theorem run_read_of_none (h : guard false a = none) : (read guard a).run m = .ok (m a) m := by
  unfold read check
  simp only [EStateM.run_bind, run_tries, h, run_reads]

theorem run_read_of_some {e : ε} (h : guard false a = some e) :
    (read guard a).run m = .error e m := by
  unfold read check
  simp only [EStateM.run_bind, run_tries, h]

variable [DecidableEq α] (b : β)

theorem run_write_of_none (h : guard true a = none) :
    (write guard a b).run m = .ok () (Function.update m a b) := by
  unfold write check
  simp only [EStateM.run_bind, run_tries, h, EStateM.run_modify]

theorem run_write_of_some {e : ε} (h : guard true a = some e) :
    (write guard a b).run m = .error e m := by
  unfold write check
  simp only [EStateM.run_bind, run_tries, h]

end Run

/-- Reading leaves the memory as it is. -/
theorem final_read (guard : Guard ε α) (a : α) (m : α → β) :
    final ((read guard a).run m) = m := by
  cases h : guard false a with
  | none => rw [run_read_of_none m h, final_ok]
  | some e => rw [run_read_of_some m h, final_error]

theorem final_readAll (guard : Guard ε α) (as : List α) (m : α → β) :
    final ((readAll guard as).run m) = m := by
  induction as with
  | nil => rfl
  | cons a as ih =>
      cases h : guard false a with
      | some e => rw [readAll, run_bind_error (run_read_of_some m h), final_error]
      | none =>
          rw [readAll, run_bind_ok (run_read_of_none m h), EStateM.run_bind]
          cases hrest : (readAll guard as).run m with
          | ok bs t => rw [hrest] at ih; exact ih
          | error e t => rw [hrest] at ih; exact ih

/-! ## replay -/

variable [DecidableEq α]

/-- The memory after the writes of a log, oldest first. -/
def replay (m : α → β) (log : List (α × β)) : α → β :=
  log.foldl (fun m p => Function.update m p.1 p.2) m

/-- What a log wrote last to an address. -/
def lastWritten (log : List (α × β)) (a : α) : Option β :=
  (log.reverse.find? (·.1 = a)).map (·.2)

theorem replay_append (m : α → β) (log log' : List (α × β)) :
    replay m (log ++ log') = replay (replay m log) log' := List.foldl_append

/-- One more write is the last to its address, and to no other. -/
theorem lastWritten_concat (log : List (α × β)) (p : α × β) (a : α) :
    lastWritten (log ++ [p]) a = if p.1 = a then some p.2 else lastWritten log a := by
  unfold lastWritten
  rw [List.reverse_append]
  by_cases h : p.1 = a
  · simp [h]
  · simp [h]

/-- Nothing was written to an address exactly if no write of the log was to it. -/
theorem lastWritten_eq_none_iff (log : List (α × β)) (a : α) :
    lastWritten log a = none ↔ ∀ p ∈ log, p.1 ≠ a := by
  simp [lastWritten]

/-- After a log an address holds what was written there last, or what it held
at first. -/
theorem replay_apply (m : α → β) (log : List (α × β)) (a : α) :
    replay m log a = (lastWritten log a).getD (m a) := by
  induction log using List.reverseRecOn with
  | nil => rfl
  | append_singleton log p ih =>
      have hstep : replay m (log ++ [p]) a = Function.update (replay m log) p.1 p.2 a := by
        rw [replay_append]; rfl
      rw [hstep, lastWritten_concat]
      by_cases h : p.1 = a
      · subst h
        rw [Function.update_self, if_pos rfl]
        rfl
      · rw [Function.update_of_ne (Ne.symm h), ih, if_neg h]

/-- The writes of a list that are carried out: those before the first refused. -/
def carriedOut (guard : Guard ε α) (ps : List (α × β)) : List (α × β) :=
  ps.takeWhile fun p => (guard true p.1).isNone

theorem final_writeAll (guard : Guard ε α) (ps : List (α × β)) (m : α → β) :
    final ((writeAll guard ps).run m) = replay m (carriedOut guard ps) := by
  induction ps generalizing m with
  | nil => rfl
  | cons p ps ih =>
      cases h : guard true p.1 with
      | some e =>
          have hnil : carriedOut guard (p :: ps) = [] := by simp [carriedOut, h]
          rw [hnil, writeAll, run_bind_error (run_write_of_some m p.2 h), final_error]
          rfl
      | none =>
          have hcons : carriedOut guard (p :: ps) = p :: carriedOut guard ps := by
            simp [carriedOut, h]
          rw [hcons, writeAll, run_bind_ok (run_write_of_none m p.2 h), ih]
          rfl

/-- Writes none of which is refused are all carried out. -/
theorem run_writeAll_of_none {guard : Guard ε α} {ps : List (α × β)}
    (h : ∀ p ∈ ps, guard true p.1 = none) (m : α → β) :
    (writeAll guard ps).run m = .ok () (replay m ps) := by
  induction ps generalizing m with
  | nil => rfl
  | cons p ps ih =>
      rw [writeAll, run_bind_ok (run_write_of_none m p.2 (h p List.mem_cons_self)),
        ih fun q hq => h q (List.mem_cons_of_mem p hq)]
      rfl

theorem writeAll_singleton (guard : Guard ε α) (a : α) (b : β) :
    writeAll guard [(a, b)] = write guard a b := bind_pure_unit

theorem final_write (guard : Guard ε α) (a : α) (b : β) (m : α → β) :
    final ((write guard a b).run m) = replay m (carriedOut guard [(a, b)]) := by
  rw [← writeAll_singleton, final_writeAll]

/-! ## representation -/

/-- The memory `m` is kept in `mem`: the cell of a mapped address is there,
where the translation sends the address. -/
def Represents {π : Type} (translation : α → π) (mapped : Set α) (m : α → β)
    (mem : π → Option β) : Prop :=
  ∀ a ∈ mapped, mem (translation a) = some (m a)

/-- Under a translation that is injective on the mapped addresses, a write here
is a write there. -/
theorem Represents.update {π : Type} [DecidableEq π] {translation : α → π} {mapped : Set α}
    {m : α → β} {mem : π → Option β} (h : Represents translation mapped m mem)
    (hinj : Set.InjOn translation mapped) {a : α} (ha : a ∈ mapped) (b : β) :
    Represents translation mapped (Function.update m a b)
      (Function.update mem (translation a) (some b)) := by
  intro a' ha'
  by_cases haa : a' = a
  · subst haa
    rw [Function.update_self, Function.update_self]
  · have hne : translation a' ≠ translation a := fun heq => haa (hinj ha' ha heq)
    rw [Function.update_of_ne hne, Function.update_of_ne haa, h a' ha']

end FlatMemory
