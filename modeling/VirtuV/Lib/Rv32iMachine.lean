import VirtuV.Lib.Bits
import VirtuV.Lib.FlatMemory
import VirtuV.Lib.Rv32i

/-!
# VirtuV.Lib.Rv32iMachine

RV32I with a `pc` and a memory: the arithmetic instructions, the store of a
word, the two comparisons for equality and the jump that links.

The program is in the memory, so a run may write its own instructions: `Runs`
lists the instructions in the order they were executed, each found at `pc` when
its turn came.  What else is asked of an instruction before it is executed is a
parameter.
-/

namespace Rv32i

open Bits

/-! ## memory -/

/-- Bytes by their addresses. -/
abbrev Memory := Word → BitVec 8

def loadWord (memory : Memory) (a : Word) : Word :=
  leWord (memory a) (memory (a + 1)) (memory (a + 2)) (memory (a + 3))

/-- The bytes of a word with the addresses they are stored at. -/
def wordBytes (a value : Word) : List (Word × BitVec 8) :=
  [(a, leByte value 0), (a + 1, leByte value 1), (a + 2, leByte value 2), (a + 3, leByte value 3)]

def storeWord (memory : Memory) (a value : Word) : Memory :=
  FlatMemory.replay memory (wordBytes a value)

theorem storeWord_apply (memory : Memory) (a value b : Word) :
    storeWord memory a value b =
      if b = a + 3 then leByte value 3
      else if b = a + 2 then leByte value 2
      else if b = a + 1 then leByte value 1
      else if b = a then leByte value 0
      else memory b := by
  simp only [storeWord, wordBytes, FlatMemory.replay, List.foldl_cons, List.foldl_nil,
    Function.update_apply]

theorem storeWord_apply_first (memory : Memory) (a value : Word) :
    storeWord memory a value a = leByte value 0 := by
  rw [storeWord_apply, if_neg, if_neg, if_neg, if_pos rfl]
  all_goals bv_omega

theorem storeWord_apply_last (memory : Memory) (a value : Word) :
    storeWord memory a value (a + 3) = leByte value 3 := by
  rw [storeWord_apply, if_pos rfl]

/-- The bytes at other addresses stay. -/
theorem storeWord_of_not_mem {memory : Memory} {a value b : Word}
    (h : b ∉ [a, a + 1, a + 2, a + 3]) : storeWord memory a value b = memory b := by
  simp only [List.mem_cons, List.not_mem_nil, or_false, not_or] at h
  obtain ⟨h0, h1, h2, h3⟩ := h
  rw [storeWord_apply, if_neg h3, if_neg h2, if_neg h1, if_neg h0]

/-- What was stored is loaded. -/
theorem loadWord_storeWord (memory : Memory) (a value : Word) :
    loadWord (storeWord memory a value) a = value := by
  have h0 := storeWord_apply_first memory a value
  have h1 : storeWord memory a value (a + 1) = leByte value 1 := by
    rw [storeWord_apply, if_neg, if_neg, if_pos rfl]
    all_goals bv_omega
  have h2 : storeWord memory a value (a + 2) = leByte value 2 := by
    rw [storeWord_apply, if_neg, if_pos rfl]
    bv_omega
  have h3 := storeWord_apply_last memory a value
  rw [loadWord, h0, h1, h2, h3, leWord_leByte]

/-- A word that changes its first and its last byte was stored at one address
alone. -/
theorem eq_of_storeWord_eq {memory : Memory} {a b value : Word}
    (h : storeWord memory a value = storeWord memory b value)
    (hfirst : memory b ≠ leByte value 0) (hlast : memory (b + 3) ≠ leByte value 3) : a = b := by
  have hb0 := storeWord_apply_first memory b value
  have hb3 := storeWord_apply_last memory b value
  have hmem0 : b ∈ [a, a + 1, a + 2, a + 3] := by
    by_contra hout
    exact hfirst ((storeWord_of_not_mem hout).symm.trans ((congrFun h b).trans hb0))
  have hmem3 : b + 3 ∈ [a, a + 1, a + 2, a + 3] := by
    by_contra hout
    exact hlast ((storeWord_of_not_mem hout).symm.trans ((congrFun h (b + 3)).trans hb3))
  simp only [List.mem_cons, List.not_mem_nil, or_false] at hmem0 hmem3
  bv_omega

structure Machine where
  x : Registers
  pc : Word
  memory : Memory

/-! ## instructions -/

inductive BranchOp where
  | beq
  | bne
deriving DecidableEq, Repr

/-- The instructions, with their operands; the offset of a branch or a jump is
counted in halfwords. -/
inductive Instr where
  | alu (i : AluInstr)
  | sw (rs2 rs1 : Reg) (offset : BitVec 12)
  | branch (op : BranchOp) (rs1 rs2 : Reg) (offset : BitVec 12)
  | jal (rd : Reg) (offset : BitVec 20)
deriving DecidableEq, Repr

namespace BranchOp

def funct3 : BranchOp → BitVec 3
  | beq => 0
  | bne => 1

def taken : BranchOp → Word → Word → Bool
  | beq, a, b => a == b
  | bne, a, b => a != b

end BranchOp

def encodeS (offset : BitVec 12) (rs2 rs1 : Reg) (funct3 : BitVec 3) (opcode : BitVec 7) : Word :=
  offset.extractLsb' 5 7 ++ rs2 ++ rs1 ++ funct3 ++ offset.extractLsb' 0 5 ++ opcode

def encodeB (offset : BitVec 12) (rs2 rs1 : Reg) (funct3 : BitVec 3) (opcode : BitVec 7) : Word :=
  offset.extractLsb' 11 1 ++ offset.extractLsb' 4 6 ++ rs2 ++ rs1 ++ funct3 ++
    offset.extractLsb' 0 4 ++ offset.extractLsb' 10 1 ++ opcode

def encodeJ (offset : BitVec 20) (rd : Reg) (opcode : BitVec 7) : Word :=
  offset.extractLsb' 19 1 ++ offset.extractLsb' 0 10 ++ offset.extractLsb' 10 1 ++
    offset.extractLsb' 11 8 ++ rd ++ opcode

namespace Instr

/-- The instruction word. -/
def encode : Instr → Word
  | alu i => i.encode
  | sw rs2 rs1 offset => encodeS offset rs2 rs1 2 0x23
  | branch op rs1 rs2 offset => encodeB offset rs2 rs1 op.funct3 0x63
  | jal rd offset => encodeJ offset rd 0x6F

/-- The machine after the instruction. -/
def exec (m : Machine) : Instr → Machine
  | alu i => { m with x := i.step m.x, pc := m.pc + 4 }
  | sw rs2 rs1 offset =>
    { m with
      memory := storeWord m.memory (m.x rs1 + offset.signExtend 32) (m.x rs2)
      pc := m.pc + 4 }
  | branch op rs1 rs2 offset =>
    { m with
      pc := if op.taken (m.x rs1) (m.x rs2) then m.pc + (offset ++ 0#1).signExtend 32
        else m.pc + 4 }
  | jal rd offset =>
    { m with
      x := fun r => if r = rd ∧ rd ≠ 0 then m.pc + 4 else m.x r
      pc := m.pc + (offset ++ 0#1).signExtend 32 }

end Instr

/-! ## runs -/

/-- The machine after the instructions of a list. -/
def execAll (is : List Instr) (m : Machine) : Machine := is.foldl Instr.exec m

/-- From `m` the instructions are executed in this order, each found at `pc`
and satisfying `P` when its turn comes. -/
def Runs (P : Instr → Machine → Prop) : List Instr → Machine → Prop
  | [], _ => True
  | i :: is, m => loadWord m.memory m.pc = i.encode ∧ P i m ∧ Runs P is (i.exec m)

theorem Runs.mono {P Q : Instr → Machine → Prop} (h : ∀ i m, P i m → Q i m) {is : List Instr}
    {m : Machine} (hruns : Runs P is m) : Runs Q is m := by
  induction is generalizing m with
  | nil => trivial
  | cons i is ih =>
      obtain ⟨hword, hi, hrest⟩ := hruns
      exact ⟨hword, h i m hi, ih hrest⟩

/-! ## decoding what was encoded -/

section Fields

variable (o : BitVec 12) (o20 : BitVec 20) (s2 s1 : Reg) (f3 : BitVec 3) (d : Reg) (op : BitVec 7)

@[simp] theorem opcode_encodeS : opcode (encodeS o s2 s1 f3 op) = op := by
  unfold opcode encodeS; ext i hi; grind

@[simp] theorem rs1_encodeS : rs1 (encodeS o s2 s1 f3 op) = s1 := by
  unfold rs1 encodeS; ext i hi; grind

@[simp] theorem rs2_encodeS : rs2 (encodeS o s2 s1 f3 op) = s2 := by
  unfold rs2 encodeS; ext i hi; grind

/-- The upper part of a store's offset. -/
@[simp] theorem upper_encodeS :
    (encodeS o s2 s1 f3 op).extractLsb' 25 7 = o.extractLsb' 5 7 := by
  unfold encodeS; ext i hi; grind

@[simp] theorem offset_encodeS :
    SplitFormat.offset .store (encodeS o s2 s1 f3 op) = o.signExtend 32 := by
  have hlower : (encodeS o s2 s1 f3 op).extractLsb' 7 5 = o.extractLsb' 0 5 := by
    unfold encodeS; ext i hi; grind
  have hbits : (o.extractLsb' 5 7 ++ o.extractLsb' 0 5 : BitVec 12) = o := by
    ext i hi; grind
  show ((encodeS o s2 s1 f3 op).extractLsb' 25 7 ++
    (encodeS o s2 s1 f3 op).extractLsb' 7 5 : BitVec 12).signExtend 32 = _
  rw [upper_encodeS, hlower, hbits]

@[simp] theorem opcode_encodeB : opcode (encodeB o s2 s1 f3 op) = op := by
  unfold opcode encodeB; ext i hi; grind

@[simp] theorem funct3_encodeB : funct3 (encodeB o s2 s1 f3 op) = f3 := by
  unfold funct3 encodeB; ext i hi; grind

@[simp] theorem rs1_encodeB : rs1 (encodeB o s2 s1 f3 op) = s1 := by
  unfold rs1 encodeB; ext i hi; grind

@[simp] theorem rs2_encodeB : rs2 (encodeB o s2 s1 f3 op) = s2 := by
  unfold rs2 encodeB; ext i hi; grind

@[simp] theorem opcode_encodeJ : opcode (encodeJ o20 d op) = op := by
  unfold opcode encodeJ; ext i hi; grind

@[simp] theorem rd_encodeJ : rd (encodeJ o20 d op) = d := by
  unfold rd encodeJ; ext i hi; grind

@[simp] theorem offset_encodeJ :
    SplitFormat.offset .jump (encodeJ o20 d op) = (o20 ++ 0#1).signExtend 32 := by
  have h31 : (encodeJ o20 d op).extractLsb' 31 1 = o20.extractLsb' 19 1 := by
    unfold encodeJ; ext i hi; grind
  have h12 : (encodeJ o20 d op).extractLsb' 12 8 = o20.extractLsb' 11 8 := by
    unfold encodeJ; ext i hi; grind
  have h20 : (encodeJ o20 d op).extractLsb' 20 1 = o20.extractLsb' 10 1 := by
    unfold encodeJ; ext i hi; grind
  have h21 : (encodeJ o20 d op).extractLsb' 21 10 = o20.extractLsb' 0 10 := by
    unfold encodeJ; ext i hi; grind
  have hbits : (o20.extractLsb' 19 1 ++ o20.extractLsb' 11 8 ++ o20.extractLsb' 10 1 ++
      o20.extractLsb' 0 10 : BitVec 20) = o20 := by
    ext i hi; grind
  show ((encodeJ o20 d op).extractLsb' 31 1 ++ (encodeJ o20 d op).extractLsb' 12 8 ++
    (encodeJ o20 d op).extractLsb' 20 1 ++ (encodeJ o20 d op).extractLsb' 21 10 ++
    0#1 : BitVec 21).signExtend 32 = _
  rw [h31, h12, h20, h21, hbits]

end Fields

end Rv32i
