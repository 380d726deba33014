import Mathlib.Data.BitVec

/-!
# VirtuV.Lib.Rv32i

The part of the RV32I instruction set the verification is stated against:
where the fields of an instruction word sit, how the split immediates of the
store, branch and jump formats are put together, and the meaning of the
register-register, register-immediate and upper-immediate instructions as
functions on the register file, with the pair of instructions that loads a
constant.

An instruction is a value of `AluInstr`, so an operand out of range cannot be
written down; `encode` is its instruction word and `step` its effect.
-/

namespace Rv32i

abbrev Word := BitVec 32

/-- A register number. -/
abbrev Reg := BitVec 5

/-- The contents of the thirty-two registers. -/
abbrev Registers := Reg → Word

/-! ## fields of an instruction word -/

def opcode (w : Word) : BitVec 7 := w.extractLsb' 0 7
def rd (w : Word) : Reg := w.extractLsb' 7 5
def funct3 (w : Word) : BitVec 3 := w.extractLsb' 12 3
def rs1 (w : Word) : Reg := w.extractLsb' 15 5
def rs2 (w : Word) : Reg := w.extractLsb' 20 5
def funct7 (w : Word) : BitVec 7 := w.extractLsb' 25 7

/-- The immediate of a register-immediate instruction. -/
def immI (w : Word) : BitVec 12 := w.extractLsb' 20 12

/-- The immediate of an upper-immediate instruction. -/
def immU (w : Word) : BitVec 20 := w.extractLsb' 12 20

/-! ## split immediates -/

/-- The formats whose immediate is scattered over the instruction word. -/
inductive SplitFormat where
  | store
  | branch
  | jump
deriving DecidableEq, Repr

namespace SplitFormat

/-- Bits of the offset, its sign bit included. -/
def width : SplitFormat → Nat
  | store => 12
  | branch => 13
  | jump => 21

def opcode : SplitFormat → BitVec 7
  | store => 0x23
  | branch => 0x63
  | jump => 0x6F

/-- The bits of the offset, highest first. -/
def offsetBits : (f : SplitFormat) → Word → BitVec f.width
  | store, w => w.extractLsb' 25 7 ++ w.extractLsb' 7 5
  | branch, w => w.extractLsb' 31 1 ++ w.extractLsb' 7 1 ++ w.extractLsb' 25 6 ++
      w.extractLsb' 8 4 ++ 0#1
  | jump, w => w.extractLsb' 31 1 ++ w.extractLsb' 12 8 ++ w.extractLsb' 20 1 ++
      w.extractLsb' 21 10 ++ 0#1

/-- The offset a word of format `f` encodes, sign-extended. -/
def offset (f : SplitFormat) (w : Word) : Word := (f.offsetBits w).signExtend 32

end SplitFormat

/-! ## arithmetic instructions -/

inductive RegOp where
  | add
  | sub
deriving DecidableEq, Repr

inductive ImmOp where
  | addi
  | slti
  | sltiu
  | xori
  | ori
  | andi
deriving DecidableEq, Repr

inductive ShiftOp where
  | slli
  | srli
deriving DecidableEq, Repr

/-- The arithmetic instructions, with their operands. -/
inductive AluInstr where
  | reg (op : RegOp) (rd rs1 rs2 : Reg)
  | imm (op : ImmOp) (rd rs1 : Reg) (value : BitVec 12)
  | shift (op : ShiftOp) (rd rs1 : Reg) (shamt : BitVec 5)
  | lui (rd : Reg) (value : BitVec 20)
deriving DecidableEq, Repr

def RegOp.funct7 : RegOp → BitVec 7
  | add => 0x00
  | sub => 0x20

def ImmOp.funct3 : ImmOp → BitVec 3
  | addi => 0
  | slti => 2
  | sltiu => 3
  | xori => 4
  | ori => 6
  | andi => 7

def ShiftOp.funct3 : ShiftOp → BitVec 3
  | slli => 1
  | srli => 5

def encodeR (funct7 : BitVec 7) (rs2 rs1 : Reg) (funct3 : BitVec 3) (rd : Reg)
    (opcode : BitVec 7) : Word :=
  funct7 ++ rs2 ++ rs1 ++ funct3 ++ rd ++ opcode

def encodeI (value : BitVec 12) (rs1 : Reg) (funct3 : BitVec 3) (rd : Reg)
    (opcode : BitVec 7) : Word :=
  value ++ rs1 ++ funct3 ++ rd ++ opcode

def encodeU (value : BitVec 20) (rd : Reg) (opcode : BitVec 7) : Word :=
  value ++ rd ++ opcode

namespace AluInstr

/-- The instruction word. -/
def encode : AluInstr → Word
  | reg op rd rs1 rs2 => encodeR op.funct7 rs2 rs1 0 rd 0x33
  | imm op rd rs1 value => encodeI value rs1 op.funct3 rd 0x13
  | shift op rd rs1 shamt => encodeR 0 shamt rs1 op.funct3 rd 0x13
  | lui rd value => encodeU value rd 0x37

/-- The destination register. -/
def rd : AluInstr → Reg
  | reg _ rd _ _ => rd
  | imm _ rd _ _ => rd
  | shift _ rd _ _ => rd
  | lui rd _ => rd

/-- The value computed from the registers. -/
def eval (x : Registers) : AluInstr → Word
  | reg .add _ rs1 rs2 => x rs1 + x rs2
  | reg .sub _ rs1 rs2 => x rs1 - x rs2
  | imm .addi _ rs1 value => x rs1 + value.signExtend 32
  | imm .slti _ rs1 value => if (x rs1).toInt < value.toInt then 1 else 0
  | imm .sltiu _ rs1 value => if (x rs1).toNat < (value.signExtend 32).toNat then 1 else 0
  | imm .xori _ rs1 value => x rs1 ^^^ value.signExtend 32
  | imm .ori _ rs1 value => x rs1 ||| value.signExtend 32
  | imm .andi _ rs1 value => x rs1 &&& value.signExtend 32
  | shift .slli _ rs1 shamt => x rs1 <<< shamt.toNat
  | shift .srli _ rs1 shamt => x rs1 >>> shamt.toNat
  | lui _ value => value ++ 0#12

/-- The registers after the instruction: the destination, unless it is the
zero register, holds the computed value. -/
def step (i : AluInstr) (x : Registers) : Registers := fun r =>
  if r = i.rd ∧ i.rd ≠ 0 then i.eval x else x r

end AluInstr

/-- The registers after a straight-line program. -/
def exec (is : List AluInstr) (x : Registers) : Registers :=
  is.foldl (fun x i => i.step x) x

theorem exec_append (is is' : List AluInstr) (x : Registers) :
    exec (is ++ is') x = exec is' (exec is x) := List.foldl_append

/-! ## constants -/

/-- A register loaded with a constant: its upper bits, rounded, and what is
missing to the constant. -/
def loadConstant (rd : Reg) (value : Word) : List AluInstr :=
  [.lui rd ((value + 0x800).extractLsb' 12 20), .imm .addi rd rd (value.extractLsb' 0 12)]

/-- The rounded upper bits and the sign-extended lower ones add up. -/
theorem upper_add_lower (value : Word) :
    ((value + 0x800).extractLsb' 12 20 ++ 0#12 : Word) +
      (value.extractLsb' 0 12).signExtend 32 = value := by
  have hlt := value.isLt
  have hupper : ((value + 0x800).extractLsb' 12 20 ++ 0#12 : Word).toNat =
      (value.toNat + 2048) % 2 ^ 32 / 4096 * 4096 := by
    rw [BitVec.toNat_append, BitVec.extractLsb'_toNat, BitVec.toNat_add,
      Nat.shiftRight_eq_div_pow, Nat.shiftLeft_eq]
    simp
    omega
  have hlower : ((value.extractLsb' 0 12).signExtend 32).toNat = value.toNat % 4096 +
      if 2048 ≤ value.toNat % 4096 then 2 ^ 32 - 4096 else 0 := by
    rw [BitVec.toNat_signExtend, BitVec.msb_eq_decide, BitVec.toNat_setWidth,
      BitVec.extractLsb'_toNat]
    simp
    omega
  apply BitVec.eq_of_toNat_eq
  rw [BitVec.toNat_add, hupper, hlower]
  split <;> omega

/-- The register, unless it is the zero register, then holds the constant. -/
theorem exec_loadConstant (rd : Reg) (value : Word) (x : Registers) (r : Reg) :
    exec (loadConstant rd value) x r = if r = rd ∧ rd ≠ 0 then value else x r := by
  have hlui : ∀ (y : Registers) (v : BitVec 20) s, (AluInstr.lui rd v).step y s =
      if s = rd ∧ rd ≠ 0 then v ++ 0#12 else y s := fun _ _ _ => rfl
  have haddi : ∀ (y : Registers) (v : BitVec 12) s, (AluInstr.imm .addi rd rd v).step y s =
      if s = rd ∧ rd ≠ 0 then y rd + v.signExtend 32 else y s := fun _ _ _ => rfl
  show (AluInstr.imm .addi rd rd _).step ((AluInstr.lui rd _).step x) r = _
  rw [haddi, hlui, hlui]
  by_cases h : r = rd ∧ rd ≠ 0
  · rw [if_pos h, if_pos h, if_pos ⟨rfl, h.2⟩, upper_add_lower]
  · rw [if_neg h, if_neg h, if_neg h]

/-- Registers loaded one after the other hold their constants. -/
theorem exec_loadConstants (rds : List Reg) (y x : Registers) (r : Reg) :
    exec (rds.flatMap fun rd => loadConstant rd (y rd)) x r =
      if r ∈ rds ∧ r ≠ 0 then y r else x r := by
  induction rds generalizing x with
  | nil => simp [exec]
  | cons rd rds ih =>
      rw [List.flatMap_cons, exec_append, ih, exec_loadConstant]
      by_cases hlater : r ∈ rds ∧ r ≠ 0
      · rw [if_pos hlater, if_pos ⟨List.mem_cons_of_mem rd hlater.1, hlater.2⟩]
      · rw [if_neg hlater]
        by_cases hr : r = rd ∧ rd ≠ 0
        · obtain ⟨rfl, h0⟩ := hr
          rw [if_pos ⟨rfl, h0⟩, if_pos ⟨List.mem_cons_self, h0⟩]
        · rw [if_neg hr, if_neg]
          rintro ⟨hmem, h0⟩
          rcases List.mem_cons.mp hmem with rfl | hmem
          · exact hr ⟨rfl, h0⟩
          · exact hlater ⟨hmem, h0⟩

/-! ## decoding what was encoded -/

section Fields

variable (f7 : BitVec 7) (s2 s1 : Reg) (f3 : BitVec 3) (d : Reg) (op : BitVec 7)
  (i12 : BitVec 12) (i20 : BitVec 20)

@[simp] theorem opcode_encodeR : opcode (encodeR f7 s2 s1 f3 d op) = op := by
  unfold opcode encodeR; ext i hi; grind

@[simp] theorem rd_encodeR : rd (encodeR f7 s2 s1 f3 d op) = d := by
  unfold rd encodeR; ext i hi; grind

@[simp] theorem funct3_encodeR : funct3 (encodeR f7 s2 s1 f3 d op) = f3 := by
  unfold funct3 encodeR; ext i hi; grind

@[simp] theorem rs1_encodeR : rs1 (encodeR f7 s2 s1 f3 d op) = s1 := by
  unfold rs1 encodeR; ext i hi; grind

@[simp] theorem rs2_encodeR : rs2 (encodeR f7 s2 s1 f3 d op) = s2 := by
  unfold rs2 encodeR; ext i hi; grind

@[simp] theorem funct7_encodeR : funct7 (encodeR f7 s2 s1 f3 d op) = f7 := by
  unfold funct7 encodeR; ext i hi; grind

@[simp] theorem opcode_encodeI : opcode (encodeI i12 s1 f3 d op) = op := by
  unfold opcode encodeI; ext i hi; grind

@[simp] theorem rd_encodeI : rd (encodeI i12 s1 f3 d op) = d := by
  unfold rd encodeI; ext i hi; grind

@[simp] theorem funct3_encodeI : funct3 (encodeI i12 s1 f3 d op) = f3 := by
  unfold funct3 encodeI; ext i hi; grind

@[simp] theorem rs1_encodeI : rs1 (encodeI i12 s1 f3 d op) = s1 := by
  unfold rs1 encodeI; ext i hi; grind

@[simp] theorem immI_encodeI : immI (encodeI i12 s1 f3 d op) = i12 := by
  unfold immI encodeI; ext i hi; grind

/-- A word built from the register format has its two highest fields as
immediate. -/
@[simp] theorem immI_encodeR : immI (encodeR f7 s2 s1 f3 d op) = f7 ++ s2 := by
  unfold immI encodeR; ext i hi; grind

@[simp] theorem opcode_encodeU : opcode (encodeU i20 d op) = op := by
  unfold opcode encodeU; ext i hi; grind

@[simp] theorem rd_encodeU : rd (encodeU i20 d op) = d := by
  unfold rd encodeU; ext i hi; grind

@[simp] theorem immU_encodeU : immU (encodeU i20 d op) = i20 := by
  unfold immU encodeU; ext i hi; grind

end Fields

end Rv32i
