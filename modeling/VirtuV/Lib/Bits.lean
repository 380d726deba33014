import Mathlib.Data.BitVec
import Mathlib.Data.Int.ModEq
import Mathlib.Data.Nat.ModEq

/-!
# VirtuV.Lib.Bits

Bit-vector facts shared by an instruction decoder and a paged memory:

* **splicing** — taking some bits of one word and the rest of another, under a
  mask; the algebra of address translation;
* **low bits** — consecutive addresses differ in their low bits;
* **combined fields** — the value of bits laid over or beside each other;
* **little endian** — a word as four bytes;
* **sign extension** — flip the sign bit, then subtract it;
* **signed values** — the integer a bit pattern of some width stands for.
-/

namespace Bits

/-! ## splicing under a mask -/

section Splice

variable {w : Nat} (m x y : BitVec w)

/-- The bits of `x` under the mask `m` and the bits of `y` elsewhere. -/
def splice : BitVec w := (x &&& m) ||| (y &&& ~~~m)

theorem splice_and : splice m x y &&& m = x &&& m := by
  ext i hi
  simp only [splice, BitVec.getElem_and, BitVec.getElem_or, BitVec.getElem_not]
  cases m[i] <;> simp

theorem splice_and_not : splice m x y &&& ~~~m = y &&& ~~~m := by
  ext i hi
  simp only [splice, BitVec.getElem_and, BitVec.getElem_or, BitVec.getElem_not]
  cases m[i] <;> simp

theorem and_and_self : x &&& m &&& m = x &&& m := by
  rw [BitVec.and_assoc, BitVec.and_self]

variable {m x y} in
/-- A word is determined by its bits under a mask and its bits elsewhere. -/
theorem eq_of_and_eq (h : x &&& m = y &&& m) (h' : x &&& ~~~m = y &&& ~~~m) : x = y := by
  have hsplit : ∀ z : BitVec w, z = splice m z z := by
    intro z
    unfold splice
    ext i hi
    simp only [BitVec.getElem_and, BitVec.getElem_or, BitVec.getElem_not]
    cases m[i] <;> simp
  rw [hsplit x, hsplit y, splice, splice, h, h']

end Splice

/-! ## low bits -/

/-- Masking with `2 ^ k - 1` keeps the value modulo `2 ^ k`. -/
theorem toNat_and_lowMask {w : Nat} (k : Nat) (hk : k ≤ w) (x : BitVec w) :
    (x &&& BitVec.ofNat w (2 ^ k - 1)).toNat = x.toNat % 2 ^ k := by
  have hle : 2 ^ k ≤ 2 ^ w := Nat.pow_le_pow_right (by decide) hk
  have hpos : 0 < 2 ^ k := Nat.two_pow_pos k
  rw [BitVec.toNat_and, BitVec.toNat_ofNat, Nat.mod_eq_of_lt (by omega),
    Nat.and_two_pow_sub_one_eq_mod]

/-- Two offsets below `2 ^ k` lead from one address to different low bits. -/
theorem low_ne_of_ne {w k i j : Nat} (hk : k ≤ w) (hi : i < 2 ^ k) (hj : j < 2 ^ k) (hij : i ≠ j)
    (x : BitVec w) :
    (x + BitVec.ofNat w i) &&& BitVec.ofNat w (2 ^ k - 1) ≠
      (x + BitVec.ofNat w j) &&& BitVec.ofNat w (2 ^ k - 1) := by
  intro h
  have hmod := congrArg BitVec.toNat h
  have hdvd : 2 ^ k ∣ 2 ^ w := Nat.pow_dvd_pow 2 hk
  simp only [toNat_and_lowMask k hk, BitVec.toNat_add, BitVec.toNat_ofNat,
    Nat.add_mod_mod, Nat.mod_mod_of_dvd _ hdvd] at hmod
  have hmod' : i ≡ j [MOD 2 ^ k] := Nat.ModEq.add_left_cancel' x.toNat hmod
  exact hij (Nat.ModEq.eq_of_lt_of_lt hmod' hi hj)

/-! ## values of combined fields -/

/-- Bits laid over each other never exceed their sum. -/
theorem or_le_add (x y : Nat) : x ||| y ≤ x + y := by
  induction x using Nat.strongRecOn generalizing y with
  | ind x ih =>
      by_cases hx : x = 0
      · subst hx; simp
      · have hhalf : (x ||| y) / 2 ≤ x / 2 + y / 2 := by
          rw [Nat.or_div_two]
          exact ih (x / 2) (by omega) (y / 2)
        have hbit : (x ||| y) % 2 ≤ x % 2 + y % 2 := by
          have hmod := Nat.or_mod_two_pow (a := x) (b := y) (n := 1)
          rw [pow_one] at hmod
          rw [hmod]
          rcases Nat.mod_two_eq_zero_or_one x with h | h <;>
            rcases Nat.mod_two_eq_zero_or_one y with h' | h' <;> simp [h, h']
        omega

/-- Bits laid side by side add up, each at its place. -/
theorem toNat_append_eq_add {n m : Nat} (x : BitVec n) (y : BitVec m) :
    (x ++ y).toNat = x.toNat * 2 ^ m + y.toNat := by
  rw [BitVec.toNat_append, ← Nat.shiftLeft_add_eq_or_of_lt y.isLt, Nat.shiftLeft_eq]

/-- A word with a clear top bit is a sign extension exactly of the same
non-negative value. -/
theorem eq_signExtend_iff {n w : Nat} {c : BitVec w} (hc : 2 * c.toNat < 2 ^ w) (x : BitVec n)
    (hn : n ≤ w) : c = x.signExtend w ↔ x.msb = false ∧ c.toNat = x.toNat := by
  constructor
  · intro h
    have hmsb : x.msb = false := by
      cases hm : x.msb with
      | false => rfl
      | true =>
          have hle : 2 ^ n ≤ 2 ^ w := Nat.pow_le_pow_right (by decide) hn
          have hhalf : 2 ^ n ≤ 2 * x.toNat := by
            simpa [BitVec.msb_eq_true_iff_two_mul_ge] using hm
          have hval := congrArg BitVec.toNat h
          rw [BitVec.toNat_signExtend, BitVec.toNat_setWidth_of_le hn, hm, if_pos rfl] at hval
          omega
    refine ⟨hmsb, ?_⟩
    rw [h, BitVec.signExtend_eq_setWidth_of_msb_false hmsb, BitVec.toNat_setWidth_of_le hn]
  · rintro ⟨hmsb, hval⟩
    apply BitVec.eq_of_toNat_eq
    rw [BitVec.signExtend_eq_setWidth_of_msb_false hmsb, BitVec.toNat_setWidth_of_le hn, hval]

/-- A word that is zero where `x` is, and whose value differs from that of `x`
elsewhere, is the sign extension of `x` only there. -/
theorem eq_signExtend_iff_eq_zero {n w : Nat} {c : BitVec w} (hc : 2 * c.toNat < 2 ^ w)
    {x : BitVec n} (hn : n ≤ w) (hzero : x.toNat = 0 → c.toNat = 0)
    (honly : c.toNat = x.toNat → x.toNat = 0) : c = x.signExtend w ↔ x = 0 := by
  have hx : x = 0 ↔ x.toNat = 0 := BitVec.toNat_inj.symm
  rw [eq_signExtend_iff hc x hn, hx]
  constructor
  · rintro ⟨-, hval⟩
    exact honly hval
  · intro h0
    rw [h0, hzero h0, hx.mpr h0]
    exact ⟨BitVec.msb_zero, rfl⟩

/-! ## little endian -/

/-- The word whose bytes, lowest address first, are `b0`, `b1`, `b2`, `b3`. -/
def leWord (b0 b1 b2 b3 : BitVec 8) : BitVec 32 := b3 ++ b2 ++ b1 ++ b0

/-- Byte `k` of a word, counted from the lowest address. -/
def leByte (w : BitVec 32) (k : Nat) : BitVec 8 := w.extractLsb' (8 * k) 8

theorem leWord_leByte (w : BitVec 32) :
    leWord (leByte w 0) (leByte w 1) (leByte w 2) (leByte w 3) = w := by
  unfold leWord leByte
  ext i hi
  grind

theorem leByte_leWord (b0 b1 b2 b3 : BitVec 8) :
    leByte (leWord b0 b1 b2 b3) 0 = b0 ∧ leByte (leWord b0 b1 b2 b3) 1 = b1 ∧
      leByte (leWord b0 b1 b2 b3) 2 = b2 ∧ leByte (leWord b0 b1 b2 b3) 3 = b3 := by
  unfold leWord leByte
  refine ⟨?_, ?_, ?_, ?_⟩ <;> ext i hi <;> grind

/-- The bytes of a list of words, in memory order. -/
def leBytes (ws : List (BitVec 32)) : List (BitVec 8) :=
  ws.flatMap fun w => [leByte w 0, leByte w 1, leByte w 2, leByte w 3]

theorem length_leBytes (ws : List (BitVec 32)) : (leBytes ws).length = 4 * ws.length := by
  induction ws with
  | nil => rfl
  | cons w ws ih =>
      rw [leBytes, List.flatMap_cons, List.length_append, List.length_cons, ← leBytes, ih]
      simp only [List.length_cons, List.length_nil]
      omega

/-- Byte `j` of word `k` sits at `4 * k + j`. -/
theorem getElem?_leBytes (ws : List (BitVec 32)) (k : Nat) {j : Nat} (hj : j < 4) :
    (leBytes ws)[4 * k + j]? = ws[k]?.map (leByte · j) := by
  induction ws generalizing k with
  | nil => simp [leBytes]
  | cons w ws ih =>
      have hcons : leBytes (w :: ws) =
          [leByte w 0, leByte w 1, leByte w 2, leByte w 3] ++ leBytes ws := rfl
      cases k with
      | zero =>
          rw [hcons, List.getElem?_append_left (by simp; omega)]
          match j, hj with
          | 0, _ => rfl
          | 1, _ => rfl
          | 2, _ => rfl
          | 3, _ => rfl
      | succ k =>
          rw [hcons, List.getElem?_append_right (by simp; omega), List.getElem?_cons_succ, ← ih k]
          congr 1
          simp only [List.length_cons, List.length_nil]
          omega

/-- Assembling a word by shifting each byte into place. -/
theorem shift_or_eq_leWord (b0 b1 b2 b3 : BitVec 8) :
    b0.setWidth 32 ||| b1.setWidth 32 <<< 8 ||| b2.setWidth 32 <<< 16 ||| b3.setWidth 32 <<< 24 =
      leWord b0 b1 b2 b3 := by
  unfold leWord
  ext i hi
  grind

/-! ## sign extension -/

/-- Flipping a bit that is clear adds it. -/
theorem xor_twoPow_of_clear {w i : Nat} {x : BitVec w} (h : x.getLsbD i = false) :
    x ^^^ BitVec.twoPow w i = x + BitVec.twoPow w i := by
  have hand : x &&& BitVec.twoPow w i = 0#w := by
    rw [BitVec.and_twoPow, h]; rfl
  rw [BitVec.add_eq_or_of_and_eq_zero _ _ hand]
  ext j hj
  have hb := congrArg (·.getLsbD j) hand
  simp at hb ⊢
  grind

/-- Flipping a bit that is set subtracts it. -/
theorem xor_twoPow_of_set {w i : Nat} {x : BitVec w} (h : x.getLsbD i = true) :
    x ^^^ BitVec.twoPow w i = x - BitVec.twoPow w i := by
  have hclear : (x ^^^ BitVec.twoPow w i).getLsbD i = false := by
    have hi : i < w := BitVec.lt_of_getLsbD h
    simp [h, hi]
  have hflip := xor_twoPow_of_clear hclear
  rw [BitVec.xor_assoc, BitVec.xor_self, BitVec.xor_zero] at hflip
  exact BitVec.eq_sub_iff_add_eq.mpr hflip.symm

/-- Flipping the sign bit of a zero-extended value and subtracting it again
sign-extends the value. -/
theorem xor_sub_signBit {w v : Nat} (x : BitVec w) (hw : 0 < w) (hv : w ≤ v) :
    (x.setWidth v ^^^ BitVec.twoPow v (w - 1)) - BitVec.twoPow v (w - 1) = x.signExtend v := by
  have hlast : (x.setWidth v).getLsbD (w - 1) = x.msb := by
    rw [BitVec.msb_eq_getLsbD_last, BitVec.getLsbD_setWidth]
    simp; omega
  cases hm : x.msb with
  | false =>
      rw [xor_twoPow_of_clear (by rw [hlast, hm]), BitVec.add_sub_cancel,
        BitVec.signExtend_eq_setWidth_of_msb_false hm]
  | true =>
      rw [xor_twoPow_of_set (by rw [hlast, hm])]
      have hpow : 2 ^ w = 2 * 2 ^ (w - 1) := by
        rw [← Nat.pow_succ', Nat.succ_eq_add_one, Nat.sub_add_cancel hw]
      have hle : 2 ^ w ≤ 2 ^ v := Nat.pow_le_pow_right (by decide) hv
      have hx : 2 ^ (w - 1) ≤ x.toNat := by simpa [BitVec.msb_eq_decide] using hm
      have hlt := x.isLt
      apply BitVec.eq_of_toNat_eq
      rw [BitVec.toNat_signExtend, hm, BitVec.toNat_sub, BitVec.toNat_sub,
        BitVec.toNat_twoPow_of_lt (by omega), BitVec.toNat_setWidth_of_le hv, if_pos rfl]
      have hfirst : (2 ^ v - 2 ^ (w - 1) + x.toNat) % 2 ^ v = x.toNat - 2 ^ (w - 1) := by
        rw [show 2 ^ v - 2 ^ (w - 1) + x.toNat = x.toNat - 2 ^ (w - 1) + 2 ^ v by omega,
          Nat.add_mod_right, Nat.mod_eq_of_lt (by omega)]
      rw [hfirst, Nat.mod_eq_of_lt (by omega)]
      omega

/-- The subtraction does not overflow, if there is a bit to spare. -/
theorem ssubOverflow_xor_signBit {w v : Nat} {x : BitVec v} (hw : 0 < w) (hv : w < v)
    (hx : x.toNat < 2 ^ w) :
    BitVec.ssubOverflow (x ^^^ BitVec.twoPow v (w - 1)) (BitVec.twoPow v (w - 1)) = false := by
  have hpow : 2 ^ w = 2 * 2 ^ (w - 1) := by
    rw [← Nat.pow_succ', Nat.succ_eq_add_one, Nat.sub_add_cancel hw]
  have hle : 2 * 2 ^ w ≤ 2 ^ v := by
    rw [← Nat.pow_succ']
    exact Nat.pow_le_pow_right (by decide) hv
  have hbit : (BitVec.twoPow v (w - 1)).toNat = 2 ^ (w - 1) := BitVec.toNat_twoPow_of_lt (by omega)
  have hxor : (x ^^^ BitVec.twoPow v (w - 1)).toNat < 2 ^ w := by
    rw [BitVec.toNat_xor]
    exact Nat.xor_lt_two_pow hx (by omega)
  have hbitInt : (BitVec.twoPow v (w - 1)).toInt = (2 ^ (w - 1) : Nat) := by
    rw [BitVec.toInt_eq_toNat_of_lt (by omega), hbit]
  have hxorInt := BitVec.toInt_eq_toNat_of_lt (x := x ^^^ BitVec.twoPow v (w - 1)) (by omega)
  have hhalf : 2 ^ v = 2 * 2 ^ (v - 1) := by
    rw [← Nat.pow_succ', Nat.succ_eq_add_one, Nat.sub_add_cancel (by omega)]
  have hcast : (2 : Int) ^ (v - 1) = (2 ^ (v - 1) : Nat) := by push_cast; rfl
  unfold BitVec.ssubOverflow
  rw [hxorInt, hbitInt, hcast, Bool.or_eq_false_iff, decide_eq_false_iff_not,
    decide_eq_false_iff_not]
  omega

/-! ## signed values -/

/-- `z` is the value of the bits of `n` as a two's complement number of `w` bits. -/
def IsSignedValue (w n : Nat) (z : Int) : Prop :=
  -2 ^ (w - 1) ≤ z ∧ z < 2 ^ (w - 1) ∧ z ≡ n [ZMOD 2 ^ w]

theorem isSignedValue_toInt {w : Nat} (x : BitVec w) : IsSignedValue w x.toNat x.toInt := by
  refine ⟨BitVec.le_toInt x, BitVec.toInt_lt, ?_⟩
  rw [BitVec.toInt_eq_toNat_bmod]
  have hcast : ((2 ^ w : Nat) : Int) = 2 ^ w := by push_cast; rfl
  rw [Int.ModEq, ← hcast, Int.bmod_emod]

/-- There is only one. -/
theorem IsSignedValue.unique {w n : Nat} {z z' : Int} (hw : 0 < w) (h : IsSignedValue w n z)
    (h' : IsSignedValue w n z') : z = z' := by
  obtain ⟨hlo, hhi, hmod⟩ := h
  obtain ⟨hlo', hhi', hmod'⟩ := h'
  have hpow : (2 : Int) ^ w = 2 * 2 ^ (w - 1) := by
    rw [← pow_succ', Nat.sub_add_cancel hw]
  have hdvd : (2 : Int) ^ w ∣ z' - z := (hmod.trans hmod'.symm).dvd
  have hzero : z' - z = 0 := by
    apply Int.eq_zero_of_dvd_of_natAbs_lt_natAbs hdvd
    omega
  omega

end Bits
