import VirtuV.Cycle

/-!
# VirtuV.Alu

One cycle on an arithmetic instruction is one step of RV32I.

* **values** — what the execute stage computes from an encoded instruction is
  the value RV32I gives it;
* **the cycle** — the flat machine finishes an encoded instruction by writing
  that value to its destination register;
* **refinement** — so the pipeline does, from any state of its latches.
-/

namespace VirtuV

open Stateful
open Bits
open Rv32i (AluInstr RegOp ImmOp ShiftOp Registers encodeR encodeI)

/-! ## values -/

/-- A shift amount survives the sign extension of the immediate it sits in. -/
theorem toNat_shamt (shamt : BitVec 5) :
    (((0#7 ++ shamt).signExtend 32 : Word) &&& 0x1F).toNat = shamt.toNat := by
  have hmask : (0x1F : Word) = BitVec.ofNat 32 (2 ^ 5 - 1) := by decide
  have hval : (0#7 ++ shamt : BitVec 12).toNat = shamt.toNat := by
    rw [toNat_append_eq_add]; simp
  have hmsb : (0#7 ++ shamt : BitVec 12).msb = false := by
    have hlt := shamt.isLt
    rw [BitVec.msb_eq_false_iff_two_mul_lt, hval]
    omega
  rw [hmask, toNat_and_lowMask 5 (by decide),
    BitVec.signExtend_eq_setWidth_of_msb_false hmsb, BitVec.toNat_setWidth_of_le (by decide),
    hval, Nat.mod_eq_of_lt shamt.isLt]

theorem aluR_encode (op : RegOp) (rd rs1 rs2 : BitVec 5) (x : Registers) :
    aluR (AluInstr.reg op rd rs1 rs2).encode x = some ((AluInstr.reg op rd rs1 rs2).eval x) := by
  cases op with
  | add => simp [aluR, AluInstr.encode, AluInstr.eval, RegOp.funct7]
  | sub => simp [aluR, AluInstr.encode, AluInstr.eval, RegOp.funct7]

theorem aluI_encode_imm (op : ImmOp) (rd rs1 : BitVec 5) (value : BitVec 12) (x : Registers) :
    aluI (AluInstr.imm op rd rs1 value).encode x = (AluInstr.imm op rd rs1 value).eval x := by
  have hint : (value.signExtend 32).toInt = value.toInt :=
    BitVec.toInt_signExtend_of_le (by decide)
  cases op <;> simp [aluI, AluInstr.encode, AluInstr.eval, ImmOp.funct3, hint]

theorem aluI_encode_shift (op : ShiftOp) (rd rs1 shamt : BitVec 5) (x : Registers) :
    aluI (AluInstr.shift op rd rs1 shamt).encode x = (AluInstr.shift op rd rs1 shamt).eval x := by
  have hshamt := toNat_shamt shamt
  rw [BitVec.toNat_and] at hshamt
  cases op with
  | slli => simpa [aluI, AluInstr.encode, AluInstr.eval, ShiftOp.funct3] using
      congrArg (x rs1 <<< ·) hshamt
  | srli => simpa [aluI, AluInstr.encode, AluInstr.eval, ShiftOp.funct3] using
      congrArg (x rs1 >>> ·) hshamt

/-! ## the cycle -/

namespace Core

/-- An arithmetic instruction writes its value to its destination. -/
theorem run_finish_alu (i : AluInstr) (c : Core) :
    (finish i.encode).run c = .ok () ((c.setAlu (i.eval c.x)).setX i.rd (i.eval c.x)) := by
  cases i with
  | reg op rd rs1 rs2 =>
      rw [run_finish_reg c (by simp [AluInstr.encode]) (aluR_encode op rd rs1 rs2 c.x)]
      simp [AluInstr.encode, AluInstr.rd]
  | imm op rd rs1 value =>
      rw [run_finish_imm c (by simp [AluInstr.encode]), aluI_encode_imm]
      simp [AluInstr.encode, AluInstr.rd]
  | shift op rd rs1 shamt =>
      rw [run_finish_imm c (by simp [AluInstr.encode]), aluI_encode_shift]
      simp [AluInstr.encode, AluInstr.rd]
  | lui rd value =>
      rw [run_finish_upper c (by simp [AluInstr.encode])]
      simp [AluInstr.encode, AluInstr.rd, AluInstr.eval]

/-- Writing the value to the destination is the step of RV32I. -/
theorem setX_eval_x (i : AluInstr) (c : Core) (result : ExecutionResult) :
    (({ c with result } : Core).setX i.rd (i.eval c.x)).x = i.step c.x := by
  funext r
  exact RegisterBank.setX_x _ _ _ _

/-- One cycle on an arithmetic instruction, in the flat machine. -/
theorem cycle_alu {i : AluInstr} {c : Core} (h : c.mmu.readWord c.pc = .ok i.encode) :
    ∃ c', cycle.run c = .ok () c' ∧ c'.x = i.step c.x ∧ c'.pc = c.pc + 4 ∧ c'.mmu = c.mmu := by
  rw [cycle_of_fetch h, run_finish_alu]
  refine ⟨_, rfl, ?_, ?_, rfl⟩
  · exact setX_eval_x i c.advance _
  · exact RegisterBank.setX_pc _ _ _

end Core

/-! ## refinement -/

/-- A cycle on an arithmetic instruction, in the pipeline: it returns, and
whatever the latches held, the registers have taken one step of RV32I, `pc` is
past the instruction and nothing else of the machine has changed. -/
theorem exists_runCycle_alu {i : AluInstr} {s : Pipeline}
    (h : s.mmu.readWord s.registerBank.pc = .ok i.encode) :
    ∃ s', Pipeline.runCycle.run s = .ok () s' ∧ s'.registerBank.x = i.step s.registerBank.x ∧
      s'.registerBank.pc = s.registerBank.pc + 4 ∧ s'.mmu = s.mmu := by
  obtain ⟨c, hrun, hx, hpc, hmmu⟩ := Core.cycle_alu (c := s.core) h
  obtain ⟨s', hrun', rfl⟩ := exists_runCycle_ok hrun
  exact ⟨s', hrun', hx, hpc, hmmu⟩

/-- **Single-step refinement**: where the four bytes at `pc` are readable and
encode an arithmetic instruction, `run_cycle` returns in the state RV32I
prescribes.  Nothing is asked of the registers, the page table, the mode or
the latches, so the states with `x0 = 0` are among those it speaks of. -/
theorem runCycle_rv32i (s : Pipeline) (i : AluInstr)
    (h : ∀ k < 4, s.mmu.read (s.registerBank.pc + BitVec.ofNat 32 k) = .ok (leByte i.encode k)) :
    ∃ s', Pipeline.runCycle.run s = .ok () s' ∧ s'.registerBank.x = i.step s.registerBank.x ∧
      s'.registerBank.pc = s.registerBank.pc + 4 ∧ s'.mmu = s.mmu :=
  exists_runCycle_alu (MMU.readWord_of_bytes h)

/-- `addi x1, x0, 5` on a fresh CPU that loaded it. -/
theorem runCycle_rv32i_addi :
    ∃ s', Pipeline.runCycle.run (CPU.boot 8 ⟨7, 8, 9⟩ [0x93, 0x00, 0x50, 0x00]).pipeline =
        .ok () s' ∧
      s'.registerBank.x = (AluInstr.imm .addi 1 0 5).step (fun _ => 0) ∧
      s'.registerBank.pc = 4 := by
  obtain ⟨s', hrun, hx, hpc, -⟩ := runCycle_rv32i
    (CPU.boot 8 ⟨7, 8, 9⟩ [0x93, 0x00, 0x50, 0x00]).pipeline
    (.imm .addi 1 0 5) (by decide +kernel)
  refine ⟨s', hrun, ?_, hpc⟩
  rw [hx]
  congr 1
  funext r
  revert r
  decide +kernel

end VirtuV
