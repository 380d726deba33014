import VirtuV.Machine
import VirtuV.Store

/-!
# VirtuV.Conformance

Exactly the instructions the pipeline executes as RV32I does.

`VirtuV.Machine` follows runs in which every instruction, when its turn comes,
does what the pipeline does.  Here the question is which instructions always
do: every program made of them runs as on the RV32I machine, and for each other
instruction there is a machine, with all of memory at its disposal, that the
pipeline leaves at once.
-/

namespace VirtuV

open Stateful
open Bits
open Rv32i (Instr Machine Runs execAll loadWord storeWord loadWord_storeWord storeWord_of_not_mem
  eq_of_storeWord_eq)

/-! ## the instructions -/

/-- Arithmetic; stores whose offset has no upper part; branches and jumps that
go on to the next word, be it by their offset or because they are never taken,
and link nothing. -/
def Conforms : Instr → Prop
  | .alu _ => True
  | .sw _ _ offset => offset.extractLsb' 5 7 = 0
  | .branch op rs1 rs2 offset => offset = 2 ∨ op = .bne ∧ rs1 = rs2
  | .jal rd offset => rd = 0 ∧ offset = 2

instance (i : Instr) : Decidable (Conforms i) := by
  cases i <;> unfold Conforms <;> infer_instance

/-- The greatest offset of a store, and the next. -/
example : Conforms (.sw 1 2 31) ∧ ¬ Conforms (.sw 1 2 32) := by decide

/-- The pipeline executes them as RV32I does, whatever the state. -/
theorem Conforms.faithful {i : Instr} (h : Conforms i) (m : Machine) : Faithful i m where
  next := by
    cases i with
    | alu i => rfl
    | sw rs2 rs1 offset => rfl
    | branch op rs1 rs2 offset =>
        rcases h with rfl | ⟨rfl, rfl⟩
        · exact ite_self (m.pc + 4)
        · have htaken : Rv32i.BranchOp.bne.taken (m.x rs1) (m.x rs1) = false := by
            simp [Rv32i.BranchOp.taken]
          rw [Instr.exec, htaken]
          rfl
    | jal rd offset =>
        obtain ⟨-, rfl⟩ := h
        rfl
  offset := by
    rintro rs2 rs1 offset rfl
    exact h
  link := by
    rintro rd offset rfl
    exact h.1

/-- The offset, in halfwords, of what goes on to the next word. -/
theorem eq_two_of_offset {n : Nat} (hn : n ≤ 31) {offset : BitVec n}
    (h : (offset ++ 0#1).signExtend 32 = (4 : Word)) : offset = 2 := by
  have hbits : ((offset ++ 0#1).signExtend 32).extractLsb' 1 n = offset := by
    ext i hi
    grind
  have htwo : (4 : Word).extractLsb' 1 n = 2 := rfl
  rw [h, htwo] at hbits
  exact hbits.symm

/-! ## a machine with all of memory -/

/-- The page table that maps every page to itself. -/
def wholeSpace : PageTable := ⟨fun key => if key &&& 0xFFF = 0 then some ⟨key ||| 0x1F⟩ else none⟩

theorem frame_wholeSpace (key : Word) : (key ||| 0x1F) &&& 0xFFFFF000 = key &&& 0xFFFFF000 := by
  have hflags : (0x1F : Word) &&& 0xFFFFF000 = 0#32 := by decide
  rw [BitVec.and_or_distrib_right, hflags, BitVec.or_zero]

theorem framesDistinct_wholeSpace : wholeSpace.FramesDistinct := by
  intro key key' e e' hkey hkey' hentry hentry' _ _ hframe
  rw [wholeSpace] at hentry hentry'
  dsimp only at hentry hentry'
  rw [if_pos hkey] at hentry
  rw [if_pos hkey'] at hentry'
  rw [← Option.some.inj hentry, ← Option.some.inj hentry'] at hframe
  dsimp only at hframe
  rw [frame_wholeSpace, frame_wholeSpace] at hframe
  rw [PageTableEntry.offsetMask_eq_not] at hkey hkey'
  exact eq_of_and_eq hframe (hkey.trans hkey'.symm)

/-- All its entries carry all flags. -/
theorem and_flag_wholeSpace (key : Word) {bit : Word} (hbit : 0x1F &&& bit = bit) :
    (key ||| 0x1F) &&& bit = bit := by
  ext i hi
  have hbit' := congrArg (fun w : Word => w[i]) hbit
  grind

theorem permits_wholeSpace (key : Word) (isWrite : Bool) :
    PageTableEntry.permits (accessBit isWrite) ⟨key ||| 0x1F⟩ .machine = true := by
  have hvalid : PageTableEntry.isValid ⟨key ||| 0x1F⟩ = true := by
    rw [PageTableEntry.isValid, and_flag_wholeSpace key (by decide)]
    decide
  rw [PageTableEntry.permits, hvalid, and_flag_wholeSpace key (by cases isWrite <;> decide)]
  cases isWrite <;> rfl

/-- The bytes at the first `n` addresses. -/
def bytesBelow (n : Nat) (memory : Rv32i.Memory) : List Byte :=
  (List.range n).map fun a => memory (BitVec.ofNat 32 a)

theorem getElem?_bytesBelow {n : Nat} (memory : Rv32i.Memory) {va : Word} (h : va.toNat < n) :
    (bytesBelow n memory)[va.toNat]? = some (memory va) := by
  rw [bytesBelow, List.getElem?_map, List.getElem?_range h, Option.map_some, BitVec.ofNat_toNat,
    BitVec.setWidth_eq]

/-- The MMU in which every address is the physical one. -/
def MMU.whole (memory : Rv32i.Memory) : MMU :=
  ⟨⟨bytesBelow (2 ^ 32) memory⟩, wholeSpace, .machine⟩

namespace MMU

variable (memory : Rv32i.Memory)

theorem entries_whole (va : Word) :
    (whole memory).pageTable.entries (va &&& 0xFFFFF000) = some ⟨va &&& 0xFFFFF000 ||| 0x1F⟩ :=
  if_pos (page_and_offset va)

theorem physical_whole (va : Word) : (whole memory).physical va = va := by
  rw [physical_of_some (entries_whole memory va)]
  refine eq_of_and_eq (m := 0xFFFFF000) ?_ ?_
  · rw [PageTableEntry.frame_getPhysicalAddress]
    exact (frame_wholeSpace _).trans (and_and_self _ _)
  · rw [← PageTableEntry.offsetMask_eq_not, PageTableEntry.offset_getPhysicalAddress]

theorem grants_whole (isWrite : Bool) (va : Word) : (whole memory).grants isWrite va = true := by
  rw [grants, entries_whole]
  exact permits_wholeSpace _ isWrite

theorem getElem?_whole (va : Word) :
    (whole memory).physicalMemory.memory[va.toNat]? = some (memory va) := by
  have hmemory : (whole memory).physicalMemory.memory = bytesBelow (2 ^ 32) memory := by
    unfold whole
    dsimp only
  rw [hmemory]
  exact getElem?_bytesBelow memory va.isLt

theorem guard_whole (isWrite : Bool) (va : Word) : (whole memory).guard isWrite va = none := by
  rw [guard_eq_none_iff]
  refine ⟨grants_whole memory isWrite va, ?_⟩
  rw [physical_whole]
  exact (List.getElem?_eq_some_iff.mp (getElem?_whole memory va)).1

theorem represents_whole : Represents (whole memory) (whole memory) memory := by
  refine ⟨rfl, rfl, rfl, fun va _ => ?_⟩
  rw [physical_whole]
  exact getElem?_whole memory va

variable {memory} in
/-- An MMU stands for one memory alone. -/
theorem represents_whole_unique {mmu : MMU} {m m' : Rv32i.Memory}
    (h : Represents (whole memory) mmu m) (h' : Represents (whole memory) mmu m') : m = m' := by
  funext va
  have hmapped : va ∈ (whole memory).mapped := Represents.mem_mapped (guard_whole memory false va)
  exact Option.some.inj ((h.bytes va hmapped).symm.trans (h'.bytes va hmapped))

end MMU

/-! ## one instruction -/

/-- A pipeline that stands for the machine, with all of memory. -/
def Pipeline.standing (m : Machine) (aluResult : Word) : Pipeline :=
  .new ⟨Vector.ofFn fun r => m.x (BitVec.ofFin r), m.pc⟩ (.whole m.memory) ⟨aluResult, 0, 0⟩

theorem simulates_standing (m : Machine) (aluResult : Word) :
    Simulates (Pipeline.standing m aluResult).mmu (.standing m aluResult) m := by
  refine ⟨?_, rfl, MMU.represents_whole m.memory⟩
  funext r
  show (Vector.ofFn fun r => m.x (BitVec.ofFin r))[r.toNat] = m.x r
  rw [Vector.getElem_ofFn]
  rfl

theorem mmu_standing (m : Machine) (aluResult : Word) :
    (Pipeline.standing m aluResult).mmu = .whole m.memory := rfl

theorem aluResult_standing (m : Machine) (aluResult : Word) :
    (Pipeline.standing m aluResult).executeStage.result.aluResult = aluResult := rfl

/-- The registers after a jump: its destination gets what was computed before. -/
theorem Pipeline.x_runCycle_of_jump {s : Pipeline} {w : Word}
    (hfetch : s.mmu.readWord s.registerBank.pc = .ok w) (hop : Rv32i.opcode w = 0x6F)
    (hi : getImmediateJ ⟨w⟩ ≠ 0) (r : Rv32i.Reg) :
    (final (Pipeline.runCycle.run s)).registerBank.x r =
      if r = Rv32i.rd w ∧ Rv32i.rd w ≠ 0 then s.executeStage.result.aluResult
      else s.registerBank.x r := by
  have hcore := Pipeline.core_runCycle_of_fetch hfetch
  rw [Core.run_finish_jump _ hop hi] at hcore
  exact (congrFun (congrArg Core.x hcore) r).trans (RegisterBank.setX_x _ _ _ _)

/-- The machine about to execute an instruction, all other bytes being `0xFF`. -/
def machineOf (i : Instr) (x : Rv32i.Registers) (pc : Word) : Machine :=
  ⟨x, pc, storeWord (fun _ => 0xFF) pc i.encode⟩

theorem memory_machineOf_of_not_mem {i : Instr} {x : Rv32i.Registers} {pc b : Word}
    (h : b ∉ wordAddresses pc) : (machineOf i x pc).memory b = 0xFF :=
  storeWord_of_not_mem h

/-- The pipeline follows the machine through all its runs of instructions in
`S`, in memory that it may access. -/
def Follows (S : Instr → Prop) : Prop :=
  ∀ (s : Pipeline) (m : Machine) (is : List Instr), s.mmu.pageTable.FramesDistinct →
    m.x 0 = 0 → Simulates s.mmu s m →
    Runs (fun i m => S i ∧ Granted s.mmu.guard i m) is m →
    Completes Pipeline.runCycle is.length s ∧
      Simulates s.mmu (after Pipeline.runCycle is.length s) (execAll is m)

namespace Follows

variable {S : Instr → Prop}

/-- One instruction with all of memory. -/
theorem step (h : Follows S) {i : Instr} (hi : S i) (x : Rv32i.Registers) (pc aluResult : Word)
    (hx : x 0 = 0) :
    Simulates (.whole (machineOf i x pc).memory)
      (final (Pipeline.runCycle.run (.standing (machineOf i x pc) aluResult)))
      (i.exec (machineOf i x pc)) := by
  have hgranted : ∀ isWrite va, (MMU.whole (machineOf i x pc).memory).guard isWrite va = none :=
    MMU.guard_whole _
  have hruns : Runs (fun j m => S j ∧ Granted (MMU.whole (machineOf i x pc).memory).guard j m)
      [i] (machineOf i x pc) := by
    refine ⟨loadWord_storeWord _ _ _, ⟨hi, ⟨fun a _ => hgranted false a, ?_⟩⟩, trivial⟩
    exact fun _ _ _ _ a _ => hgranted true a
  exact (h _ _ [i] framesDistinct_wholeSpace hx (simulates_standing _ aluResult) hruns).2

/-- The word is fetched. -/
theorem fetch (i : Instr) (x : Rv32i.Registers) (pc aluResult : Word) :
    (Pipeline.standing (machineOf i x pc) aluResult).mmu.readWord
      (Pipeline.standing (machineOf i x pc) aluResult).registerBank.pc = .ok i.encode := by
  have hload : loadWord (machineOf i x pc).memory pc = i.encode := loadWord_storeWord _ _ _
  rw [← hload]
  exact (MMU.represents_whole _).readWord_eq fun a _ => MMU.guard_whole _ false a

/-- So the instruction goes on to the next word. -/
theorem next (h : Follows S) {i : Instr} (hi : S i) (x : Rv32i.Registers) (pc : Word)
    (hx : x 0 = 0) : (i.exec (machineOf i x pc)).pc = pc + 4 := by
  rw [← (h.step hi x pc 0 hx).pc]
  exact Pipeline.pc_runCycle_of_fetch (fetch i x pc 0)

/-- A store clears the bytes that RV32I clears. -/
theorem storeWord_eq (h : Follows S) {rs2 rs1 : Rv32i.Reg} {offset : BitVec 12}
    (hi : S (.sw rs2 rs1 offset)) (pc : Word) :
    storeWord (machineOf (.sw rs2 rs1 offset) (fun _ => 0) pc).memory
      (storeAddress (Instr.sw rs2 rs1 offset).encode fun _ => 0) 0 =
    storeWord (machineOf (.sw rs2 rs1 offset) (fun _ => 0) pc).memory
      (offset.signExtend 32) 0 := by
  have hstep := (h.step hi (fun _ => 0) pc 0 rfl).memory
  have hfetch := fetch (.sw rs2 rs1 offset) (fun _ => 0) pc 0
  have hop : Rv32i.opcode (Instr.sw rs2 rs1 offset).encode = 0x23 := by simp [Instr.encode]
  have hx : (machineOf (.sw rs2 rs1 offset) (fun _ => 0) pc).x = fun _ => 0 := rfl
  generalize hva : storeAddress (Instr.sw rs2 rs1 offset).encode (fun _ => 0) = va
  generalize machineOf (.sw rs2 rs1 offset) (fun _ => 0) pc = m at *
  have hexec : ((Instr.sw rs2 rs1 offset).exec m).memory =
      storeWord m.memory (m.x rs1 + offset.signExtend 32) (m.x rs2) := rfl
  rw [(Pipeline.runCycle_of_store hfetch hop).2.1, (simulates_standing _ _).x, mmu_standing,
    hexec, hx, hva, zero_add] at hstep
  have hgranted : ∀ a ∈ wordAddresses va, (MMU.whole m.memory).guard true a = none :=
    fun a _ => MMU.guard_whole _ true a
  obtain ⟨mmu', hrun, hrep⟩ :=
    (MMU.represents_whole m.memory).run_writeWord framesDistinct_wholeSpace hgranted 0
  rw [hrun, final_ok] at hstep
  exact MMU.represents_whole_unique hrep hstep

/-- The word it stores tells where: the instruction lies after it. -/
theorem storeAddress_eq (h : Follows S) {rs2 rs1 : Rv32i.Reg} {offset : BitVec 12}
    (hi : S (.sw rs2 rs1 offset)) :
    storeAddress (Instr.sw rs2 rs1 offset).encode (fun _ => 0) = offset.signExtend 32 := by
  have hstores := h.storeWord_eq hi (offset.signExtend 32 + 8)
  generalize offset.signExtend 32 = ea at *
  have hfirst : ea ∉ wordAddresses (ea + 8) := by
    simp only [wordAddresses, List.mem_cons, List.not_mem_nil, or_false, not_or]
    refine ⟨?_, ?_, ?_, ?_⟩ <;> bv_omega
  have hlast : ea + 3 ∉ wordAddresses (ea + 8) := by
    simp only [wordAddresses, List.mem_cons, List.not_mem_nil, or_false, not_or]
    refine ⟨?_, ?_, ?_, ?_⟩ <;> bv_omega
  refine eq_of_storeWord_eq hstores ?_ ?_
  · rw [memory_machineOf_of_not_mem hfirst]
    decide
  · rw [memory_machineOf_of_not_mem hlast]
    decide

/-- A store whose offset has an upper part goes elsewhere. -/
theorem conforms_sw (h : Follows S) {rs2 rs1 : Rv32i.Reg} {offset : BitVec 12}
    (hi : S (.sw rs2 rs1 offset)) : Conforms (.sw rs2 rs1 offset) := by
  have himm := h.storeAddress_eq hi
  rw [storeAddress, zero_add, ← Rv32i.offset_encodeS offset rs2 rs1 2 0x23, Instr.encode,
    getImmediateS_eq_offset_iff, OverlapHarmless, Rv32i.upper_encodeS] at himm
  exact himm

/-- A branch goes on to the next word, taken or not. -/
theorem conforms_branch (h : Follows S) {op : Rv32i.BranchOp} {rs1 rs2 : Rv32i.Reg}
    {offset : BitVec 12} (hi : S (.branch op rs1 rs2 offset)) :
    Conforms (.branch op rs1 rs2 offset) := by
  -- a branch that is taken goes on to the next word by its offset alone
  have hoffset : ∀ x : Rv32i.Registers, x 0 = 0 → op.taken (x rs1) (x rs2) = true → offset = 2 := by
    intro x hx htaken
    have hexec : ((Instr.branch op rs1 rs2 offset).exec
        (machineOf (.branch op rs1 rs2 offset) x 0)).pc = 0 + (offset ++ 0#1).signExtend 32 :=
      if_pos htaken
    exact eq_two_of_offset (by decide) (add_left_cancel (hexec.symm.trans (h.next hi x 0 hx)))
  cases op with
  | beq => exact .inl (hoffset (fun _ => 0) rfl rfl)
  | bne =>
      by_cases hrs : rs1 = rs2
      · exact .inr ⟨rfl, hrs⟩
      · -- registers that hold their own numbers
        refine .inl (hoffset (fun r => r.setWidth 32) rfl (bne_iff_ne.mpr fun heq => hrs ?_))
        have hback := congrArg (BitVec.setWidth 5) heq
        simpa using hback

/-- A jump that links stores what was computed before. -/
theorem conforms_jal (h : Follows S) {rd : Rv32i.Reg} {offset : BitVec 20}
    (hi : S (.jal rd offset)) : Conforms (.jal rd offset) := by
  have hoffset : offset = 2 :=
    eq_two_of_offset (by decide) (add_left_cancel (h.next hi (fun _ => 0) 0 rfl))
  refine ⟨?_, hoffset⟩
  by_contra hrd
  have hstep := (h.step hi (fun _ => 0) 0 0 rfl).x
  have hlinks : ((Instr.jal rd offset).exec (machineOf (.jal rd offset) (fun _ => 0) 0)).x rd =
      0 + 4 := if_pos ⟨rfl, hrd⟩
  have hop : Rv32i.opcode (Instr.jal rd offset).encode = 0x6F := by simp [Instr.encode]
  have himm : getImmediateJ ⟨(Instr.jal rd offset).encode⟩ ≠ 0 := by
    apply getImmediateJ_jal_ne_zero
    rw [hoffset]
    decide
  have hdest : Rv32i.rd (Instr.jal rd offset).encode = rd := Rv32i.rd_encodeJ _ _ _
  have hx := Pipeline.x_runCycle_of_jump (fetch (.jal rd offset) (fun _ => 0) 0 0) hop himm rd
  rw [hdest, if_pos ⟨rfl, hrd⟩, aluResult_standing, hstep, hlinks] at hx
  revert hx
  decide

end Follows

/-- **The instructions the emulator has right**: a set of instructions is one
that the pipeline follows the RV32I machine through, in every run of every
program made of them, over every injective page table and in memory it may
access, exactly if each of them conforms. -/
theorem follows_iff_conforms (S : Instr → Prop) : Follows S ↔ ∀ i, S i → Conforms i := by
  constructor
  · intro h i hi
    cases i with
    | alu i => trivial
    | sw rs2 rs1 offset => exact h.conforms_sw hi
    | branch op rs1 rs2 offset => exact h.conforms_branch hi
    | jal rd offset => exact h.conforms_jal hi
  · intro h s m is hinj _ hs hruns
    exact hs.run hinj (hruns.mono fun i m hi => ⟨(h i hi.1).faithful m, hi.2⟩)

end VirtuV
