import Mathlib.Data.List.Pairwise
import VirtuV.Lib.Bits

/-!
# VirtuV.Lib.BitFields

Bit fields of a word, and words assigned field by field.

* **fields** — reading and assigning one, bit by bit;
* **layouts** — fields side by side, each its own bits;
* **assignments** — what a sequence of them leads to, and what it leaves.
-/

namespace BitFields

open Bits (splice)

/-! ## fields -/

/-- The bits of a word from `lo` on, `width` of them. -/
structure Field where
  lo : Nat
  width : Nat
deriving DecidableEq, Repr

namespace Field

/-- Bit `i` of the word is one of the field. -/
def Covers (f : Field) (i : Nat) : Prop := f.lo ≤ i ∧ i < f.lo + f.width

instance (f : Field) (i : Nat) : Decidable (f.Covers i) := inferInstanceAs (Decidable (_ ∧ _))

/-- The fields have no bit in common. -/
def Apart (f g : Field) : Prop := f.lo + f.width ≤ g.lo ∨ g.lo + g.width ≤ f.lo

instance (f g : Field) : Decidable (f.Apart g) := inferInstanceAs (Decidable (_ ∨ _))

variable {w : Nat}

/-- The value of the field. -/
def get (f : Field) (x : BitVec w) : BitVec f.width := x.extractLsb' f.lo f.width

/-- The bits of the field. -/
def mask (f : Field) : BitVec w := (BitVec.allOnes f.width).setWidth w <<< f.lo

/-- Assign a value to the field: its low bits, as many as the field has. -/
def set (f : Field) (v x : BitVec w) : BitVec w := splice f.mask (v <<< f.lo) x

theorem getElem_mask (f : Field) {i : Nat} (hi : i < w) :
    (f.mask : BitVec w)[i] = decide (f.Covers i) := by
  simp only [mask, BitVec.getElem_shiftLeft, BitVec.getElem_setWidth, BitVec.getLsbD_allOnes,
    Covers]
  by_cases hlo : i < f.lo
  · have hnot : ¬ (f.lo ≤ i ∧ i < f.lo + f.width) := fun h => absurd hlo (Nat.not_lt.mpr h.1)
    simp [hlo, hnot]
  · have hiff : (f.lo ≤ i ∧ i < f.lo + f.width) ↔ i - f.lo < f.width := by omega
    simp [hlo, hiff]

/-- Assigning changes the bits of the field alone. -/
theorem getElem_set (f : Field) (v x : BitVec w) {i : Nat} (hi : i < w) :
    (f.set v x)[i] = if f.Covers i then v.getLsbD (i - f.lo) else x[i] := by
  simp only [set, splice, BitVec.getElem_or, BitVec.getElem_and, BitVec.getElem_not,
    getElem_mask]
  by_cases h : f.Covers i
  · have hlo : ¬ i < f.lo := Nat.not_lt.mpr h.1
    have hlt : i - f.lo < w := by omega
    simp [h, hlo, hlt]
  · simp [h]

/-- A bit of the value read is a bit of the word. -/
theorem getElem_get (f : Field) (x : BitVec w) {i : Nat} (hi : i < f.width) :
    (f.get x)[i] = x.getLsbD (f.lo + i) := BitVec.getElem_extractLsb' hi

/-- A field reads the same in words that agree in its bits. -/
theorem get_eq_iff (f : Field) (x y : BitVec w) :
    f.get x = f.get y ↔ ∀ i (hi : i < w), f.Covers i → x[i] = y[i] := by
  constructor
  · intro h i hi hcovers
    have hbit : f.lo + (i - f.lo) = i := Nat.add_sub_cancel' hcovers.1
    have hlt : i - f.lo < f.width := by
      have hhi := hcovers.2
      omega
    have hget : (f.get x)[i - f.lo] = (f.get y)[i - f.lo] := by rw [h]
    rwa [getElem_get, getElem_get, hbit, BitVec.getLsbD_eq_getElem hi,
      BitVec.getLsbD_eq_getElem hi] at hget
  · intro h
    ext i hi
    rw [getElem_get, getElem_get]
    by_cases hlt : f.lo + i < w
    · rw [BitVec.getLsbD_eq_getElem hlt, BitVec.getLsbD_eq_getElem hlt]
      exact h _ hlt ⟨Nat.le_add_right _ _, Nat.add_lt_add_left hi _⟩
    · rw [BitVec.getLsbD_of_ge _ _ (Nat.not_lt.mp hlt),
        BitVec.getLsbD_of_ge _ _ (Nat.not_lt.mp hlt)]

/-- What is assigned is read back, as much of it as fits. -/
theorem get_set_self (f : Field) (v x : BitVec w) (h : f.lo + f.width ≤ w) :
    f.get (f.set v x) = v.setWidth f.width := by
  ext i hi
  have hlt : f.lo + i < w := by omega
  have hcovers : f.Covers (f.lo + i) := ⟨Nat.le_add_right _ _, Nat.add_lt_add_left hi _⟩
  rw [getElem_get, BitVec.getLsbD_eq_getElem hlt, getElem_set, if_pos hcovers,
    Nat.add_sub_cancel_left, BitVec.getElem_setWidth]

/-- And other fields read as before. -/
theorem get_set_of_apart {f g : Field} (h : f.Apart g) (v x : BitVec w) :
    g.get (f.set v x) = g.get x := by
  rw [get_eq_iff]
  intro i hi hg
  have hnot : ¬ f.Covers i := by
    rintro ⟨hlo, hhi⟩
    have hlo' := hg.1
    have hhi' := hg.2
    rcases h with h | h <;> omega
  rw [getElem_set, if_neg hnot]

end Field

instance : Std.Symm Field.Apart := ⟨fun _ _ => Or.symm⟩

/-! ## layouts -/

/-- Fields of these widths side by side, the first from bit `lo` on. -/
def layout (lo : Nat) : List Nat → List Field
  | [] => []
  | width :: widths => ⟨lo, width⟩ :: layout (lo + width) widths

/-- No field of a layout begins before the layout does. -/
theorem le_lo_of_mem_layout {lo : Nat} {widths : List Nat} {f : Field} (h : f ∈ layout lo widths) :
    lo ≤ f.lo := by
  induction widths generalizing lo with
  | nil => contradiction
  | cons width widths ih =>
      rcases List.mem_cons.mp h with rfl | h
      · exact Nat.le_refl _
      · exact Nat.le_trans (Nat.le_add_right _ _) (ih h)

/-- The fields of a layout are apart. -/
theorem pairwise_layout (lo : Nat) (widths : List Nat) :
    (layout lo widths).Pairwise Field.Apart := by
  induction widths generalizing lo with
  | nil => exact .nil
  | cons width widths ih =>
      exact .cons (fun f hf => .inl (le_lo_of_mem_layout hf)) (ih (lo + width))

/-- So two of them are one, or apart. -/
theorem eq_or_apart_of_mem_layout {lo : Nat} {widths : List Nat} {f g : Field}
    (hf : f ∈ layout lo widths) (hg : g ∈ layout lo widths) : f = g ∨ f.Apart g := by
  by_cases heq : f = g
  · exact .inl heq
  · exact .inr ((pairwise_layout lo widths).forall hf hg heq)

/-! ## assignments -/

section Assign

variable {w : Nat}

/-- Assign to one field after the other. -/
def assign (as : List (Field × BitVec w)) (x : BitVec w) : BitVec w :=
  as.foldl (fun x a => a.1.set a.2 x) x

theorem assign_cons (a : Field × BitVec w) (as : List (Field × BitVec w)) (x : BitVec w) :
    assign (a :: as) x = assign as (a.1.set a.2 x) := rfl

/-- Bits of none of the fields stay. -/
theorem getElem_assign_of_not_covers {as : List (Field × BitVec w)} {i : Nat}
    (h : ∀ a ∈ as, ¬ a.1.Covers i) (x : BitVec w) (hi : i < w) : (assign as x)[i] = x[i] := by
  induction as generalizing x with
  | nil => rfl
  | cons a as ih =>
      obtain ⟨hfirst, hothers⟩ := List.forall_mem_cons.mp h
      simp only [assign_cons]
      rw [ih hothers, Field.getElem_set, if_neg hfirst]

/-- Assigning to every field what it has in `y` leaves there what `y` has. -/
theorem getElem_assign_of_covers {fs : List Field} {i : Nat} (y : BitVec w) (hi : i < w)
    (h : ∃ f ∈ fs, f.Covers i) (x : BitVec w) :
    (assign (fs.map fun f => (f, y >>> f.lo)) x)[i] = y[i] := by
  induction fs generalizing x with
  | nil => exact absurd h (by simp)
  | cons f fs ih =>
      rw [List.exists_mem_cons_iff] at h
      simp only [List.map_cons, assign_cons]
      by_cases hothers : ∃ g ∈ fs, g.Covers i
      · exact ih hothers _
      · have hf : f.Covers i := h.resolve_right hothers
        have hnot : ∀ a ∈ fs.map fun f => (f, y >>> f.lo), ¬ a.1.Covers i := by
          intro a ha
          obtain ⟨g, hg, rfl⟩ := List.mem_map.mp ha
          exact fun hcovers => hothers ⟨g, hg, hcovers⟩
        have hbit : f.lo + (i - f.lo) = i := Nat.add_sub_cancel' hf.1
        rw [getElem_assign_of_not_covers hnot, Field.getElem_set, if_pos hf,
          BitVec.getLsbD_ushiftRight, hbit, BitVec.getLsbD_eq_getElem hi]

/-- **What can be assigned**: assigning to the fields of a list leads from one
word to another exactly if the words agree in the bits that are in none of
them. -/
theorem exists_assign_iff (fs : List Field) (x y : BitVec w) :
    (∃ as : List (Field × BitVec w), (∀ a ∈ as, a.1 ∈ fs) ∧ assign as x = y) ↔
      ∀ i (hi : i < w), (∀ f ∈ fs, ¬ f.Covers i) → y[i] = x[i] := by
  constructor
  · rintro ⟨as, has, rfl⟩ i hi hnot
    exact getElem_assign_of_not_covers (fun a ha => hnot _ (has a ha)) x hi
  · intro h
    refine ⟨fs.map fun f => (f, y >>> f.lo), fun a ha => ?_, ?_⟩
    · obtain ⟨f, hf, rfl⟩ := List.mem_map.mp ha
      exact hf
    · ext i hi
      by_cases hcovered : ∃ f ∈ fs, f.Covers i
      · exact getElem_assign_of_covers y hi hcovered x
      · have hnot : ∀ f ∈ fs, ¬ f.Covers i := fun f hf hc => hcovered ⟨f, hf, hc⟩
        rw [h i hi hnot]
        refine getElem_assign_of_not_covers (fun a ha => ?_) x hi
        obtain ⟨f, hf, rfl⟩ := List.mem_map.mp ha
        exact hnot f hf

/-- The last value assigned to a field, if one was. -/
def lastOf (f : Field) : List (Field × BitVec w) → Option (BitVec w)
  | [] => none
  | a :: as => (lastOf f as).or (if a.1 = f then some a.2 else none)

/-- **What is read**: of fields that are apart, each reads as it was last
assigned, or as before if it was not. -/
theorem get_assign {f : Field} (hf : f.lo + f.width ≤ w) {as : List (Field × BitVec w)}
    (has : ∀ a ∈ as, a.1 = f ∨ a.1.Apart f) (x : BitVec w) :
    f.get (assign as x) = ((lastOf f as).map (BitVec.setWidth f.width)).getD (f.get x) := by
  induction as generalizing x with
  | nil => rfl
  | cons a as ih =>
      obtain ⟨hfirst, hothers⟩ := List.forall_mem_cons.mp has
      rw [assign_cons, ih hothers, lastOf]
      cases lastOf f as with
      | some v => rfl
      | none =>
          rw [Option.none_or]
          by_cases heq : a.1 = f
          · rw [if_pos heq, heq]
            exact Field.get_set_self f a.2 x hf
          · rw [if_neg heq]
            exact Field.get_set_of_apart (hfirst.resolve_left heq) a.2 x

end Assign

end BitFields
