import VirtuV.Instruction
import VirtuV.Lib.Bits
import VirtuV.Lib.Rv32i

/-!
# VirtuV.Immediate

The immediates `get_immediate` computes, against the ones RV32I encodes.

`get_combined_immediate` aligns every bit range to bit 0 of its result.  With
one range that is bit-field extraction, so the I and U immediates are right;
with several the ranges land on top of each other, and the S, B and J
immediates are right only where the overlap loses nothing.
-/

namespace VirtuV

open Bits
open Rv32i (SplitFormat)

/-! ## get_combined_immediate -/

/-- One step of the inner loop moves bit `bit` of the word to bit `d`. -/
theorem getLsbD_moveBit (raw : Word) {bit d i : Nat} (hi : i < 32) :
    (((raw >>> bit) &&& 1) <<< d).getLsbD i = (decide (i = d) && raw.getLsbD bit) := by
  rw [BitVec.getLsbD_shiftLeft, BitVec.getLsbD_and, BitVec.getLsbD_ushiftRight]
  by_cases hid : i = d
  · subst hid
    simp [hi]
  · by_cases hlt : i < d
    · simp [hlt, hid]
    · have hpos : i - d ≠ 0 := by omega
      simp [hid, hpos]

/-- The inner loop ors the bits from `stop` to `bit` into the result, bit
`stop` first. -/
theorem getLsbD_combineRange (raw : Word) (stop bit : Nat) (immediate : Word) {i : Nat}
    (hi : i < 32) : (combineRange raw stop bit immediate).getLsbD i =
      (immediate.getLsbD i || (decide (i + stop ≤ bit) && raw.getLsbD (i + stop))) := by
  induction bit generalizing immediate with
  | zero =>
      unfold combineRange
      split
      · next hlt =>
        have hno : ¬ i + stop ≤ 0 := by omega
        simp [hno]
      · next hge =>
        obtain rfl : stop = 0 := by omega
        rw [BitVec.getLsbD_or, getLsbD_moveBit raw hi]
        by_cases hi0 : i = 0
        · subst hi0; simp
        · simp [hi0]
  | succ bit ih =>
      unfold combineRange
      split
      · next hlt =>
        have hno : ¬ i + stop ≤ bit + 1 := by omega
        simp [hno]
      · next hge =>
        rw [ih, BitVec.getLsbD_or, getLsbD_moveBit raw hi]
        by_cases heq : i = bit + 1 - stop
        · have hsum : i + stop = bit + 1 := by omega
          simp [heq, show bit + 1 - stop + stop = bit + 1 by omega]
        · have hiff : (i + stop ≤ bit + 1) = (i + stop ≤ bit) := by
            apply propext; omega
          simp [heq, hiff]

/-- The inner loop ors a whole bit field into the result, aligned to bit 0. -/
theorem combineRange_eq (raw : Word) (stop start : Nat) (immediate : Word) :
    combineRange raw stop start immediate =
      immediate ||| (raw.extractLsb' stop (start + 1 - stop)).setWidth 32 := by
  apply BitVec.eq_of_getLsbD_eq
  intro i hi
  rw [getLsbD_combineRange raw stop start immediate hi, BitVec.getLsbD_or,
    BitVec.getLsbD_setWidth, BitVec.getLsbD_extractLsb']
  have hiff : (i + stop ≤ start) = (i < start + 1 - stop) := by
    apply propext; omega
  rw [Nat.add_comm stop i]
  simp [hi, hiff]

/-- With a single range it is bit-field extraction. -/
theorem getCombinedImmediate_single (raw : Word) (start stop : Nat) :
    getCombinedImmediate raw [(start, stop)] =
      (raw.extractLsb' stop (start + 1 - stop)).setWidth 32 := by
  rw [getCombinedImmediate, List.foldl_cons, List.foldl_nil, combineRange_eq]
  exact BitVec.zero_or

/-! ## sign_extend -/

/-- `sign_extend` extends a `w`-bit value to 32 bits. -/
theorem signExtend_eq {w : Nat} (x : BitVec w) (hw : 0 < w) (hw32 : w ≤ 32) :
    signExtend (x.setWidth 32) w = x.signExtend 32 := by
  have hbit : (1 : Word) <<< (w - 1) = BitVec.twoPow 32 (w - 1) := by
    rw [BitVec.twoPow]; rfl
  unfold signExtend
  rw [hbit]
  exact xor_sub_signBit x hw hw32

/-! ## the contiguous formats -/

/-- The I immediate is the one RV32I encodes. -/
theorem getImmediateI_eq (inst : DecodedInstruction .iType) :
    getImmediateI inst = (Rv32i.immI inst.raw).signExtend 32 := by
  have hfield : getCombinedImmediate inst.raw [(31, 20)] = (Rv32i.immI inst.raw).setWidth 32 :=
    getCombinedImmediate_single inst.raw 31 20
  rw [getImmediateI, hfield, signExtend_eq _ (by decide) (by decide)]

/-- The U immediate is the one RV32I encodes. -/
theorem getImmediateU_eq (inst : DecodedInstruction .uType) :
    getImmediateU inst = Rv32i.immU inst.raw ++ 0#12 := by
  have hfield : getCombinedImmediate inst.raw [(31, 12)] = (Rv32i.immU inst.raw).setWidth 32 :=
    getCombinedImmediate_single inst.raw 31 12
  rw [getImmediateU, hfield]
  ext i hi
  grind

/-- It is the word without its low 12 bits. -/
theorem getImmediateU_eq_and (inst : DecodedInstruction .uType) :
    getImmediateU inst = inst.raw &&& 0xFFFFF000 := by
  have hmask : (0xFFFFF000 : Word) = BitVec.allOnes 20 ++ 0#12 := by decide
  rw [getImmediateU_eq, hmask, Rv32i.immU]
  ext i hi
  rw [BitVec.getElem_and, BitVec.getElem_append, BitVec.getElem_append]
  split
  · simp
  · have hsum : 12 + (i - 12) = i := by omega
    rw [BitVec.getElem_extractLsb', BitVec.getElem_allOnes, Bool.and_true, hsum]
    exact BitVec.getLsbD_eq_getElem hi

/-! ### any contiguous range -/

section Contiguous

variable (raw : Word) {start stop : Nat}

/-- A range is read as a number of its width. -/
theorem toNat_getCombinedImmediate_single (hstop : stop ≤ start) (hstart : start ≤ 31) :
    (getCombinedImmediate raw [(start, stop)]).toNat =
      raw.toNat >>> stop % 2 ^ (start - stop + 1) := by
  have hw : start - stop + 1 = start + 1 - stop := by omega
  rw [getCombinedImmediate_single, BitVec.toNat_setWidth_of_le (by omega),
    BitVec.extractLsb'_toNat, hw]

/-- Sign-extended, it is the signed value of its bits. -/
theorem isSignedValue_signExtend (hstop : stop ≤ start) (hstart : start ≤ 31) :
    IsSignedValue (start - stop + 1) (getCombinedImmediate raw [(start, stop)]).toNat
      (signExtend (getCombinedImmediate raw [(start, stop)]) (start - stop + 1)).toInt := by
  have hw : start - stop + 1 = start + 1 - stop := by omega
  rw [hw, getCombinedImmediate_single, signExtend_eq _ (by omega) (by omega),
    BitVec.toInt_signExtend_of_le (by omega), BitVec.toNat_setWidth_of_le (by omega)]
  exact isSignedValue_toInt _

/-- Nothing overflows on the way, unless the range is the whole word. -/
theorem signExtend_no_overflow (hstop : stop ≤ start) (hstart : start ≤ 31)
    (hwidth : start - stop + 1 ≤ 31) :
    BitVec.ssubOverflow
      (getCombinedImmediate raw [(start, stop)] ^^^ (1 : Word) <<< (start - stop))
      ((1 : Word) <<< (start - stop)) = false := by
  have hbit : (1 : Word) <<< (start - stop) = BitVec.twoPow 32 (start - stop + 1 - 1) := by
    rw [BitVec.twoPow]; rfl
  have hlt : (getCombinedImmediate raw [(start, stop)]).toNat < 2 ^ (start - stop + 1) := by
    rw [toNat_getCombinedImmediate_single raw hstop hstart]
    exact Nat.mod_lt _ (Nat.two_pow_pos _)
  rw [hbit]
  exact ssubOverflow_xor_signBit (by omega) (by omega) hlt

end Contiguous

/-- **Contiguous immediates**: a single range of at most 31 bits is read as
the number its bits are, and sign-extending that gives the one signed value of
the bits, without overflow in the subtraction.  So the I immediate is the
signed value of the bits 31 to 20, and the U immediate is the word with its low
12 bits cleared. -/
theorem getCombinedImmediate_contiguous (raw : Word) :
    (∀ start stop, stop ≤ start → start ≤ 31 → start - stop + 1 ≤ 31 →
      (getCombinedImmediate raw [(start, stop)]).toNat =
        raw.toNat >>> stop % 2 ^ (start - stop + 1) ∧
      IsSignedValue (start - stop + 1) (getCombinedImmediate raw [(start, stop)]).toNat
        (signExtend (getCombinedImmediate raw [(start, stop)]) (start - stop + 1)).toInt ∧
      (∀ z, IsSignedValue (start - stop + 1) (getCombinedImmediate raw [(start, stop)]).toNat z →
        z = (signExtend (getCombinedImmediate raw [(start, stop)]) (start - stop + 1)).toInt) ∧
      BitVec.ssubOverflow
        (getCombinedImmediate raw [(start, stop)] ^^^ (1 : Word) <<< (start - stop))
        ((1 : Word) <<< (start - stop)) = false) ∧
    IsSignedValue 12 (raw.toNat >>> 20 % 2 ^ 12) (getImmediateI ⟨raw⟩).toInt ∧
    getImmediateU ⟨raw⟩ = raw &&& 0xFFFFF000 := by
  refine ⟨fun start stop hstop hstart hwidth => ?_, ?_, ?_⟩
  · have hvalue := isSignedValue_signExtend raw hstop hstart
    exact ⟨toNat_getCombinedImmediate_single raw hstop hstart, hvalue,
      fun z hz => hz.unique (Nat.succ_pos _) hvalue,
      signExtend_no_overflow raw hstop hstart hwidth⟩
  · have hvalue : IsSignedValue 12 (getCombinedImmediate raw [(31, 20)]).toNat
        (getImmediateI ⟨raw⟩).toInt := isSignedValue_signExtend raw (by decide) (by decide)
    rwa [toNat_getCombinedImmediate_single raw (by decide) (by decide)] at hvalue
  · exact getImmediateU_eq_and ⟨raw⟩

/-! ## the split formats -/

/-- `get_immediate` of the split formats, as a function of the word. -/
def splitImmediate : SplitFormat → Word → Word
  | .store, raw => getImmediateS ⟨raw⟩
  | .branch, raw => getImmediateB ⟨raw⟩
  | .jump, raw => getImmediateJ ⟨raw⟩

/-- The words on which the ranges of a split format overlap without loss: the
upper range of a store is clear, or the whole offset of a branch or jump is. -/
def OverlapHarmless : SplitFormat → Word → Prop
  | .store, raw => raw.extractLsb' 25 7 = 0
  | .branch, raw => SplitFormat.offsetBits .branch raw = 0
  | .jump, raw => SplitFormat.offsetBits .jump raw = 0

/-- A value whose sign bit is clear is its own sign extension. -/
theorem signExtend_of_lt {c : Word} {w : Nat} (hw : 0 < w) (hw32 : w ≤ 32)
    (hc : c.toNat < 2 ^ (w - 1)) : signExtend c w = c := by
  have hpow : 2 ^ w = 2 * 2 ^ (w - 1) := by
    rw [← Nat.pow_succ', Nat.succ_eq_add_one, Nat.sub_add_cancel hw]
  have hle : 2 ^ w ≤ 2 ^ 32 := Nat.pow_le_pow_right (by decide) hw32
  have hval : (c.setWidth w).toNat = c.toNat := by
    rw [BitVec.toNat_setWidth, Nat.mod_eq_of_lt (by omega)]
  have hself : (c.setWidth w).setWidth 32 = c := by
    apply BitVec.eq_of_toNat_eq
    rw [BitVec.toNat_setWidth_of_le hw32, hval]
  have hmsb : (c.setWidth w).msb = false := by
    rw [BitVec.msb_eq_false_iff_two_mul_lt, hval]
    omega
  have hext := signExtend_eq (c.setWidth w) hw hw32
  rwa [hself, BitVec.signExtend_eq_setWidth_of_msb_false hmsb, hself] at hext

/-- The value of a bit field widened to a word. -/
theorem toNat_field (raw : Word) (start : Nat) {len : Nat} (hlen : len ≤ 32) :
    ((raw.extractLsb' start len).setWidth 32).toNat = (raw.extractLsb' start len).toNat :=
  BitVec.toNat_setWidth_of_le hlen

/-- A bit field is no larger than its width allows. -/
theorem field_lt (raw : Word) (start : Nat) {len n : Nat} (hlen : len ≤ n) :
    (raw.extractLsb' start len).toNat < 2 ^ n :=
  Nat.lt_of_lt_of_le (raw.extractLsb' start len).isLt (Nat.pow_le_pow_right (by decide) hlen)

/-- Four fields of at most `n` bits over each other have at most `n` bits. -/
theorem or_or_or_lt {a b c d n : Nat} (ha : a < 2 ^ n) (hb : b < 2 ^ n) (hc : c < 2 ^ n)
    (hd : d < 2 ^ n) : a ||| b ||| c ||| d < 2 ^ n :=
  Nat.or_lt_two_pow (Nat.or_lt_two_pow (Nat.or_lt_two_pow ha hb) hc) hd

/-- The S immediate: its two ranges over each other. -/
theorem toNat_getImmediateS (raw : Word) :
    (getImmediateS ⟨raw⟩).toNat =
      (raw.extractLsb' 25 7).toNat ||| (raw.extractLsb' 7 5).toNat := by
  have hval : (getCombinedImmediate raw [(31, 25), (11, 7)]).toNat =
      (raw.extractLsb' 25 7).toNat ||| (raw.extractLsb' 7 5).toNat := by
    simp [getCombinedImmediate, combineRange_eq, toNat_field, -BitVec.extractLsb'_toNat,
      -BitVec.toNat_setWidth]
  rw [getImmediateS, signExtend_of_lt (by decide) (by decide) ?_, hval]
  rw [hval]
  exact Nat.or_lt_two_pow (field_lt _ _ (by decide)) (field_lt _ _ (by decide))

/-- The B immediate: its four ranges over each other. -/
theorem toNat_getImmediateB (raw : Word) :
    (getImmediateB ⟨raw⟩).toNat =
      (raw.extractLsb' 31 1).toNat ||| (raw.extractLsb' 25 6).toNat |||
        (raw.extractLsb' 8 4).toNat ||| (raw.extractLsb' 7 1).toNat := by
  have hval : (getCombinedImmediate raw [(31, 31), (30, 25), (11, 8), (7, 7)]).toNat =
      (raw.extractLsb' 31 1).toNat ||| (raw.extractLsb' 25 6).toNat |||
        (raw.extractLsb' 8 4).toNat ||| (raw.extractLsb' 7 1).toNat := by
    simp [getCombinedImmediate, combineRange_eq, toNat_field, -BitVec.extractLsb'_toNat,
      -BitVec.toNat_setWidth]
  rw [getImmediateB, signExtend_of_lt (by decide) (by decide) ?_, hval]
  rw [hval]
  exact or_or_or_lt (field_lt _ _ (by decide)) (field_lt _ _ (by decide))
    (field_lt _ _ (by decide)) (field_lt _ _ (by decide))

/-- The J immediate: its four ranges over each other. -/
theorem toNat_getImmediateJ (raw : Word) :
    (getImmediateJ ⟨raw⟩).toNat =
      (raw.extractLsb' 31 1).toNat ||| (raw.extractLsb' 21 10).toNat |||
        (raw.extractLsb' 20 1).toNat ||| (raw.extractLsb' 12 8).toNat := by
  have hval : (getCombinedImmediate raw [(31, 31), (30, 21), (20, 20), (19, 12)]).toNat =
      (raw.extractLsb' 31 1).toNat ||| (raw.extractLsb' 21 10).toNat |||
        (raw.extractLsb' 20 1).toNat ||| (raw.extractLsb' 12 8).toNat := by
    simp [getCombinedImmediate, combineRange_eq, toNat_field, -BitVec.extractLsb'_toNat,
      -BitVec.toNat_setWidth]
  rw [getImmediateJ, signExtend_of_lt (by decide) (by decide) ?_, hval]
  rw [hval]
  exact or_or_or_lt (field_lt _ _ (by decide)) (field_lt _ _ (by decide))
    (field_lt _ _ (by decide)) (field_lt _ _ (by decide))

/-- The value of a store offset, field by field. -/
theorem toNat_offsetBits_store (raw : Word) : (SplitFormat.offsetBits .store raw).toNat =
    (raw.extractLsb' 25 7).toNat * 2 ^ 5 + (raw.extractLsb' 7 5).toNat :=
  toNat_append_eq_add _ _

/-- The upper range of a store is clear where its value is 0. -/
theorem overlapHarmless_store_iff (raw : Word) :
    OverlapHarmless .store raw ↔ (raw.extractLsb' 25 7).toNat = 0 :=
  BitVec.toNat_inj.symm

/-- The store offset is right exactly when its upper range is clear. -/
theorem getImmediateS_eq_offset_iff (raw : Word) :
    getImmediateS ⟨raw⟩ = SplitFormat.offset .store raw ↔ OverlapHarmless .store raw := by
  have hcode := toNat_getImmediateS raw
  have hover := or_le_add (raw.extractLsb' 25 7).toNat (raw.extractLsb' 7 5).toNat
  have hupper := (raw.extractLsb' 25 7).isLt
  have hlower := (raw.extractLsb' 7 5).isLt
  have hwidth : 2 ^ SplitFormat.store.width = 4096 := by decide
  rw [SplitFormat.offset, eq_signExtend_iff (by omega) _ (by decide),
    BitVec.msb_eq_false_iff_two_mul_lt, overlapHarmless_store_iff, hcode, toNat_offsetBits_store,
    hwidth]
  constructor
  · rintro ⟨-, hval⟩
    omega
  · intro h0
    rw [h0, Nat.zero_or]
    omega

/-- The value of a branch offset, field by field. -/
theorem toNat_offsetBits_branch (raw : Word) : (SplitFormat.offsetBits .branch raw).toNat =
    (raw.extractLsb' 31 1).toNat * 2 ^ 12 + (raw.extractLsb' 7 1).toNat * 2 ^ 11 +
      (raw.extractLsb' 25 6).toNat * 2 ^ 5 + (raw.extractLsb' 8 4).toNat * 2 := by
  simp only [SplitFormat.offsetBits, SplitFormat.width, toNat_append_eq_add]
  simp only [BitVec.toNat_ofNat, Nat.zero_mod]
  omega

/-- The value of a jump offset, field by field. -/
theorem toNat_offsetBits_jump (raw : Word) : (SplitFormat.offsetBits .jump raw).toNat =
    (raw.extractLsb' 31 1).toNat * 2 ^ 20 + (raw.extractLsb' 12 8).toNat * 2 ^ 12 +
      (raw.extractLsb' 20 1).toNat * 2 ^ 11 + (raw.extractLsb' 21 10).toNat * 2 := by
  simp only [SplitFormat.offsetBits, SplitFormat.width, toNat_append_eq_add]
  simp only [BitVec.toNat_ofNat, Nat.zero_mod]
  omega

/-- Four fields over each other never exceed their sum. -/
theorem or_or_or_le (a b c d : Nat) : a ||| b ||| c ||| d ≤ a + b + c + d := by
  have h1 := or_le_add (a ||| b ||| c) d
  have h2 := or_le_add (a ||| b) c
  have h3 := or_le_add a b
  omega

/-- The branch offset is right exactly when it is zero. -/
theorem getImmediateB_eq_offset_iff (raw : Word) :
    getImmediateB ⟨raw⟩ = SplitFormat.offset .branch raw ↔ OverlapHarmless .branch raw := by
  have hcode := toNat_getImmediateB raw
  have hbits := toNat_offsetBits_branch raw
  have hover := or_or_or_le (raw.extractLsb' 31 1).toNat (raw.extractLsb' 25 6).toNat
    (raw.extractLsb' 8 4).toNat (raw.extractLsb' 7 1).toNat
  have h31 := (raw.extractLsb' 31 1).isLt
  have h25 := (raw.extractLsb' 25 6).isLt
  have h8 := (raw.extractLsb' 8 4).isLt
  have h7 := (raw.extractLsb' 7 1).isLt
  -- the code stays within the sum of the fields, the offset weighs each at least twice
  exact eq_signExtend_iff_eq_zero (by omega) (by decide) (by omega) (by omega)

/-- The jump offset is right exactly when it is zero. -/
theorem getImmediateJ_eq_offset_iff (raw : Word) :
    getImmediateJ ⟨raw⟩ = SplitFormat.offset .jump raw ↔ OverlapHarmless .jump raw := by
  have hcode := toNat_getImmediateJ raw
  have hbits := toNat_offsetBits_jump raw
  have hover := or_or_or_le (raw.extractLsb' 31 1).toNat (raw.extractLsb' 21 10).toNat
    (raw.extractLsb' 20 1).toNat (raw.extractLsb' 12 8).toNat
  have h31 := (raw.extractLsb' 31 1).isLt
  have h21 := (raw.extractLsb' 21 10).isLt
  have h20 := (raw.extractLsb' 20 1).isLt
  have h12 := (raw.extractLsb' 12 8).isLt
  exact eq_signExtend_iff_eq_zero (by omega) (by decide) (by omega) (by omega)

/-- A split immediate is the offset RV32I encodes exactly where the overlap of
its ranges loses nothing. -/
theorem splitImmediate_eq_offset_iff (f : SplitFormat) (raw : Word) :
    splitImmediate f raw = f.offset raw ↔ OverlapHarmless f raw := by
  cases f with
  | store => exact getImmediateS_eq_offset_iff raw
  | branch => exact getImmediateB_eq_offset_iff raw
  | jump => exact getImmediateJ_eq_offset_iff raw

/-! ## which offsets survive decoding -/

/-- The offsets a split format decodes correctly. -/
def exactOffsets : SplitFormat → Set Int
  | .store => {n | 0 ≤ n ∧ n ≤ 31}
  | .branch => {0}
  | .jump => {0}

/-- The value of an offset is that of its bits. -/
theorem toInt_offset (f : SplitFormat) (raw : Word) :
    (f.offset raw).toInt = (f.offsetBits raw).toInt := by
  rw [SplitFormat.offset, BitVec.toInt_signExtend_of_le]
  cases f <;> decide

/-- An offset is determined by its bits. -/
theorem offset_inj {f : SplitFormat} {raw raw' : Word} (h : f.offset raw = f.offset raw') :
    f.offsetBits raw = f.offsetBits raw' := by
  apply BitVec.eq_of_toInt_eq
  rw [← toInt_offset, ← toInt_offset, h]

/-- A value of zero bits is zero. -/
theorem toInt_eq_zero_iff {n : Nat} (x : BitVec n) : x.toInt = 0 ↔ x = 0 := by
  rw [← BitVec.toInt_inj]
  simp

/-- Where the overlap is harmless, in terms of the offset encoded. -/
theorem overlapHarmless_iff_exactOffsets (f : SplitFormat) (raw : Word) :
    OverlapHarmless f raw ↔ (f.offset raw).toInt ∈ exactOffsets f := by
  rw [toInt_offset]
  cases f with
  | store =>
      have hbits := toNat_offsetBits_store raw
      have hupper := (raw.extractLsb' 25 7).isLt
      have hlower := (raw.extractLsb' 7 5).isLt
      have hwidth : 2 ^ SplitFormat.store.width = 4096 := by decide
      rw [overlapHarmless_store_iff, exactOffsets, Set.mem_ofPred_eq, BitVec.toInt_eq_toNat_cond,
        hwidth]
      split <;> omega
  | branch => exact (toInt_eq_zero_iff _).symm
  | jump => exact (toInt_eq_zero_iff _).symm

/-- **Split immediates**: decoding gives back the offset of a word exactly when
the upper range of a store, or the whole offset of a branch or jump, is clear,
that is for the offsets 0 to 31 of a store and for the offset 0 of a branch or
jump; between such words, different offset bits decode differently. -/
theorem splitImmediate_exact (f : SplitFormat) (raw : Word) :
    (splitImmediate f raw = f.offset raw ↔ OverlapHarmless f raw) ∧
    ((splitImmediate f raw).toInt = (f.offset raw).toInt ↔
      (f.offset raw).toInt ∈ exactOffsets f) ∧
    (∀ raw', OverlapHarmless f raw → OverlapHarmless f raw' →
      f.offsetBits raw ≠ f.offsetBits raw' → splitImmediate f raw ≠ splitImmediate f raw') := by
  have hiff := splitImmediate_eq_offset_iff f
  refine ⟨hiff raw, ?_, fun raw' h h' hne heq => ?_⟩
  · rw [BitVec.toInt_inj, hiff, overlapHarmless_iff_exactOffsets]
  · rw [(hiff raw).mpr h, (hiff raw').mpr h'] at heq
    exact hne (offset_inj heq)

/-- A store with offset 32 decodes to offset 1, a branch with offset 2 and a
jump with offset -2 to offsets 1 and 1023: none is the one encoded, and stores
with offsets 1 and 32 decode alike. -/
theorem splitImmediate_overlap :
    splitImmediate .store 0x02000023 = 1 ∧ SplitFormat.offset .store 0x02000023 = 32 ∧
    splitImmediate .branch 0x00000163 = 1 ∧ SplitFormat.offset .branch 0x00000163 = 2 ∧
    splitImmediate .jump 0xFFFFF06F = 1023 ∧ SplitFormat.offset .jump 0xFFFFF06F = -2 ∧
    ¬ (∀ f raw, splitImmediate f raw = f.offset raw) ∧
    ¬ (∀ f raw raw', f.offsetBits raw ≠ f.offsetBits raw' →
      splitImmediate f raw ≠ splitImmediate f raw') := by
  refine ⟨by decide, by decide, by decide, by decide, by decide, by decide, fun h => ?_,
    fun h => ?_⟩
  · exact absurd (h .store 0x02000023) (by decide)
  · exact absurd rfl (h .store 0x02000023 0x000000A3 (by decide))

end VirtuV
