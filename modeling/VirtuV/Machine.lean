import VirtuV.Alu
import VirtuV.Jump
import VirtuV.Trajectory
import VirtuV.VirtualMemory
import VirtuV.Lib.Rv32iMachine

/-!
# VirtuV.Machine

Programs with a memory: the pipeline against the RV32I machine.

The pipeline goes on to the next word whatever a branch or a jump says, and
lays the two parts of a store's offset over each other.  So it follows the
RV32I machine through a run as long as no control is transferred and no store
has an offset over 31 — and then it does so over any injective page table, with
memory and with programs that write their own instructions.

* **the relation** — registers, `pc` and the flat memory are the machine's;
* **one instruction** — executed alike by both;
* **runs** — from one instruction to any number of them, and to the end of a
  program under `CPU.run`.
-/

namespace VirtuV

open Stateful
open Bits
open Rv32i (Instr Machine Runs execAll loadWord storeWord)

/-! ## the relation -/

/-- The pipeline has the registers, the `pc` and the memory of the machine,
kept in an MMU with the page table, the mode and the size of `origin`. -/
structure Simulates (origin : MMU) (s : Pipeline) (m : Machine) : Prop where
  x : s.registerBank.x = m.x
  pc : s.registerBank.pc = m.pc
  memory : origin.Represents s.mmu m.memory

namespace MMU.Represents

variable {origin mmu : MMU} {m : Word → Byte}

/-- A word none of whose bytes is refused is the word of the flat memory. -/
theorem readWord_eq (h : Represents origin mmu m) {va : Word}
    (hg : ∀ a ∈ wordAddresses va, origin.guard false a = none) :
    mmu.readWord va = .ok (loadWord m va) := by
  simp only [wordAddresses, List.forall_mem_cons] at hg
  obtain ⟨h0, h1, h2, h3, -⟩ := hg
  exact readWord_of_read (h.read_eq h0) (h.read_eq h1) (h.read_eq h2) (h.read_eq h3)

/-- A word stored, none of its bytes refused, is a word stored in the flat
memory. -/
theorem run_writeWord (h : Represents origin mmu m) (hinj : origin.pageTable.FramesDistinct)
    {va : Word} (hg : ∀ a ∈ wordAddresses va, origin.guard true a = none) (value : Word) :
    ∃ mmu', (writeWord va value).run mmu = .ok () mmu' ∧
      Represents origin mmu' (storeWord m va value) := by
  have hcoupled := coupled_access hinj (.writeWord va value)
  have hwrites : ∀ p ∈ wordCells va value, origin.guard true p.1 = none := by
    intro p hp
    apply hg
    have hcells : (wordCells va value).map Prod.fst = wordAddresses va := rfl
    rw [← hcells]
    exact List.mem_map_of_mem hp
  have hflat : (Access.flat origin.guard (.writeWord va value)).run m =
      .ok .done (storeWord m va value) := by
    rw [Access.flat, run_bind_ok (FlatMemory.run_writeAll_of_none hwrites m)]
    rfl
  obtain ⟨mmu', hrun, hrep⟩ := hcoupled.exists_ok h hflat
  refine ⟨mmu', ?_, hrep⟩
  rw [Access.perform] at hrun
  cases hw : (writeWord va value).run mmu with
  | ok u n =>
      rw [run_bind_ok hw] at hrun
      obtain ⟨-, rfl⟩ := EStateM.Result.ok.inj hrun
      rfl
  | error e n =>
      rw [run_bind_error hw] at hrun
      contradiction

end MMU.Represents

/-! ## one instruction -/

/-- What the pipeline executes as RV32I does: instructions that go on to the
next word, with an offset up to 31 if they store and no link if they jump. -/
structure Faithful (i : Instr) (m : Machine) : Prop where
  next : (i.exec m).pc = m.pc + 4
  offset : ∀ rs2 rs1 offset, i = .sw rs2 rs1 offset → offset.extractLsb' 5 7 = 0
  link : ∀ rd offset, i = .jal rd offset → rd = 0

/-- None of the bytes the instruction is fetched from, or stores to, is
refused. -/
structure Granted (guard : FlatMemory.Guard Exception Word) (i : Instr) (m : Machine) : Prop where
  fetch : ∀ a ∈ wordAddresses m.pc, guard false a = none
  store : ∀ rs2 rs1 offset, i = .sw rs2 rs1 offset →
    ∀ a ∈ wordAddresses (m.x rs1 + offset.signExtend 32), guard true a = none

/-- Only a jump to itself has no offset in the emulator's eyes. -/
theorem getImmediateJ_jal_ne_zero {rd : Rv32i.Reg} {offset : BitVec 20}
    (h : (offset ++ 0#1).signExtend 32 ≠ (0 : Word)) :
    getImmediateJ ⟨(Instr.jal rd offset).encode⟩ ≠ 0 := by
  rwa [Ne, getImmediateJ_eq_zero_iff, ← jumpOffset_eq_zero_iff, Instr.encode,
    Rv32i.offset_encodeJ]

namespace Core

/-- The rest of a cycle, on an instruction that goes on to the next word and
is no store. -/
theorem exists_finish {i : Instr} {m : Machine} (hfaithful : Faithful i m) {c : Core}
    (hx : c.x = m.x) (hpc : c.pc = m.pc + 4) (hstore : ∀ rs2 rs1 offset, i ≠ .sw rs2 rs1 offset) :
    ∃ c', (finish i.encode).run c = .ok () c' ∧ c'.x = (i.exec m).x ∧ c'.pc = m.pc + 4 ∧
      c'.mmu = c.mmu := by
  cases i with
  | alu i =>
      refine ⟨_, run_finish_alu i c, ?_, ?_, rfl⟩
      · rw [Instr.exec, ← hx]
        exact setX_eval_x i c _
      · rw [← hpc]
        exact RegisterBank.setX_pc _ _ _
  | sw rs2 rs1 offset => exact absurd rfl (hstore rs2 rs1 offset)
  | branch op rs1 rs2 offset =>
      have htaken : takesB (Instr.branch op rs1 rs2 offset).encode c.x =
          some (op.taken (c.x rs1) (c.x rs2)) := by
        cases op with
        | beq => simp [takesB, Instr.encode, Rv32i.BranchOp.funct3, Rv32i.BranchOp.taken]
        | bne => simp [takesB, Instr.encode, Rv32i.BranchOp.funct3, Rv32i.BranchOp.taken]
      exact ⟨_, run_finish_branch c (by simp [Instr.encode]) htaken, hx, hpc, rfl⟩
  | jal rd offset =>
      obtain rfl : rd = 0 := hfaithful.link rd offset rfl
      have hoffset : (offset ++ 0#1).signExtend 32 = (4 : Word) := add_left_cancel hfaithful.next
      have himm : getImmediateJ ⟨(Instr.jal 0 offset).encode⟩ ≠ 0 := by
        apply getImmediateJ_jal_ne_zero
        rw [hoffset]
        decide
      have hrd : Rv32i.rd (Instr.jal 0 offset).encode = 0 := Rv32i.rd_encodeJ _ _ _
      have hexec : ((Instr.jal 0 offset).exec m).x = m.x := by
        funext r
        exact if_neg fun hr => hr.2 rfl
      refine ⟨_, run_finish_jump c (by simp [Instr.encode]) himm, ?_, ?_, rfl⟩
      · rw [hrd, hexec, ← hx]
        rfl
      · rw [← hpc]
        exact RegisterBank.setX_pc _ _ _

/-- The rest of a cycle, on a store. -/
theorem exists_finish_sw (rs2 : Rv32i.Reg) {rs1 : Rv32i.Reg} {offset : BitVec 12} {m : Machine}
    {origin : MMU} (hinj : origin.pageTable.FramesDistinct)
    (hoffset : offset.extractLsb' 5 7 = 0)
    (hgranted : ∀ a ∈ wordAddresses (m.x rs1 + offset.signExtend 32), origin.guard true a = none)
    {c : Core} (hx : c.x = m.x) (hrep : origin.Represents c.mmu m.memory) :
    ∃ c', (finish (Instr.sw rs2 rs1 offset).encode).run c = .ok () c' ∧ c'.x = m.x ∧
      c'.pc = c.pc ∧
      origin.Represents c'.mmu (storeWord m.memory (m.x rs1 + offset.signExtend 32) (m.x rs2)) := by
  have hop : Rv32i.opcode (Instr.sw rs2 rs1 offset).encode = 0x23 := by simp [Instr.encode]
  have haddress : storeAddress (Instr.sw rs2 rs1 offset).encode c.x =
      m.x rs1 + offset.signExtend 32 := by
    have hharmless : OverlapHarmless .store (Instr.sw rs2 rs1 offset).encode := by
      rw [OverlapHarmless, Instr.encode, Rv32i.upper_encodeS, hoffset]
    rw [storeAddress, (getImmediateS_eq_offset_iff _).mpr hharmless, hx]
    simp [Instr.encode]
  have hdata : c.x (Rv32i.rs2 (Instr.sw rs2 rs1 offset).encode) = m.x rs2 := by
    rw [hx]
    simp [Instr.encode]
  obtain ⟨mmu', hrun, hrep'⟩ := hrep.run_writeWord hinj hgranted (m.x rs2)
  refine ⟨{ c.setAlu (m.x rs1 + offset.signExtend 32) with mmu := mmu' }, ?_, hx, rfl, hrep'⟩
  rw [run_finish_store c hop, haddress, hdata, run_zoom]
  have hmmu : (c.setAlu (m.x rs1 + offset.signExtend 32)).mmu = c.mmu := rfl
  rw [hmmu, hrun]

end Core

/-- **One instruction** is executed alike. -/
theorem Simulates.step {origin : MMU} (hinj : origin.pageTable.FramesDistinct) {s : Pipeline}
    {m : Machine} (h : Simulates origin s m) {i : Instr}
    (hword : loadWord m.memory m.pc = i.encode) (hfaithful : Faithful i m)
    (hgranted : Granted origin.guard i m) :
    outcome (Pipeline.runCycle.run s) = .ok () ∧
      Simulates origin (final (Pipeline.runCycle.run s)) (i.exec m) := by
  have hfetch : s.mmu.readWord s.registerBank.pc = .ok i.encode := by
    rw [h.pc, ← hword]
    exact h.memory.readWord_eq hgranted.fetch
  have hx : s.core.advance.x = m.x := h.x
  have hpc : s.core.advance.pc = m.pc + 4 := congrArg (· + 4) h.pc
  have hfinish : ∃ c', (Core.finish i.encode).run s.core.advance = .ok () c' ∧
      c'.x = (i.exec m).x ∧ c'.pc = (i.exec m).pc ∧ origin.Represents c'.mmu (i.exec m).memory := by
    by_cases hstore : ∃ rs2 rs1 offset, i = .sw rs2 rs1 offset
    · obtain ⟨rs2, rs1, offset, rfl⟩ := hstore
      obtain ⟨c', hrun, hx', hpc', hrep⟩ := Core.exists_finish_sw rs2 hinj
        (hfaithful.offset _ _ _ rfl) (hgranted.store _ _ _ rfl) hx h.memory
      exact ⟨c', hrun, hx', hpc'.trans hpc, hrep⟩
    · have hne : ∀ rs2 rs1 offset, i ≠ .sw rs2 rs1 offset :=
        fun rs2 rs1 offset heq => hstore ⟨rs2, rs1, offset, heq⟩
      obtain ⟨c', hrun, hx', hpc', hmmu⟩ := Core.exists_finish hfaithful hx hpc hne
      refine ⟨c', hrun, hx', hpc'.trans hfaithful.next.symm, ?_⟩
      have hmemory : (i.exec m).memory = m.memory := by
        cases i with
        | sw rs2 rs1 offset => exact absurd rfl (hne rs2 rs1 offset)
        | _ => rfl
      rw [hmmu, hmemory]
      exact h.memory
  obtain ⟨c', hrun, hx', hpc', hrep⟩ := hfinish
  have hout := Pipeline.outcome_runCycle_of_fetch hfetch
  have hcore := Pipeline.core_runCycle_of_fetch hfetch
  rw [hrun] at hout hcore
  have hbank : (final (Pipeline.runCycle.run s)).registerBank = c'.registerBank :=
    congrArg Core.registerBank hcore
  have hmmu : (final (Pipeline.runCycle.run s)).mmu = c'.mmu := congrArg Core.mmu hcore
  refine ⟨hout, ?_, ?_, ?_⟩
  · rw [hbank]
    exact hx'
  · rw [hbank]
    exact hpc'
  · rw [hmmu]
    exact hrep

/-! ## runs -/

/-- What is asked of an instruction when its turn comes. -/
def Followed (origin : MMU) (i : Instr) (m : Machine) : Prop :=
  Faithful i m ∧ Granted origin.guard i m

/-- **A run** of the machine is one of the pipeline. -/
theorem Simulates.run {origin : MMU} (hinj : origin.pageTable.FramesDistinct) {s : Pipeline}
    {m : Machine} (h : Simulates origin s m) {is : List Instr}
    (hruns : Runs (Followed origin) is m) :
    Completes Pipeline.runCycle is.length s ∧
      Simulates origin (after Pipeline.runCycle is.length s) (execAll is m) := by
  induction is generalizing s m with
  | nil => exact ⟨fun k hk => absurd hk (Nat.not_lt_zero k), h⟩
  | cons i is ih =>
      obtain ⟨hword, hi, hrest⟩ := hruns
      obtain ⟨hok, hnext⟩ := h.step hinj hword hi.1 hi.2
      obtain ⟨hcompletes, hlast⟩ := ih hnext hrest
      refine ⟨(completes_succ _ _ _).mpr ⟨⟨(), hok⟩, hcompletes⟩, ?_⟩
      rw [List.length_cons, after_succ']
      exact hlast

namespace CPU

variable {memorySize : Nat} {garbage : Uninitialized} {self : CPU}

end CPU

end VirtuV
