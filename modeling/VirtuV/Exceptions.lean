import VirtuV.Loader
import VirtuV.VirtualMemory

/-!
# VirtuV.Exceptions

Which exceptions a cycle can throw, to the letter.

A cycle throws one of the four rejections of its word, or what the guard of the
MMU refuses some address with.  On a CPU that has been through any loads and
cycles the guard is that of one page with every permission, so it refuses an
address only for lack of an entry or of memory.
-/

namespace VirtuV

open Stateful
open Rv32i (opcode funct3)

namespace Exception

def noEntry : Exception :=
  .pageFaultException "PageTable::get_entry - No entry for virtual address"

def invalidEntry : Exception := .pageFaultException "MMU::translate_address - Invalid page entry"

def notWritable : Exception :=
  .accessViolationException "MMU::translate_address - Write not permitted on this page"

def notReadable : Exception :=
  .accessViolationException "MMU::translate_address - Read not permitted on this page"

def writeOutOfRange : Exception := .outOfRange "PhysicalMemory::write - Address out of range"

def readOutOfRange : Exception := .outOfRange "PhysicalMemory::read - Address out of range"

/-- Everything the memory system throws. -/
def memoryFaults : List Exception :=
  [noEntry, invalidEntry, notWritable, notReadable, writeOutOfRange, readOutOfRange]

/-- Everything a cycle throws of its own. -/
def rejections : List Exception :=
  [.invalidArgument "Unsupported instruction format",
    .invalidArgument "Unsupported R-Type funct3",
    .invalidArgument "Unsupported B-Type funct3",
    .endOfProgramException "End of program reached"]

theorem mem_rejections {e : Exception} (h : Core.Rejection e) : e ∈ rejections := by
  cases h <;> decide

end Exception

/-! ## the memory system -/

namespace MMU

theorem translateAddress_error_mem {mmu : MMU} {isWrite : Bool} {va : Word} {e : Exception}
    (h : mmu.translateAddress va isWrite = .error e) : e ∈ Exception.memoryFaults := by
  rw [translateAddress] at h
  cases hentry : mmu.pageTable.entries (va &&& 0xFFFFF000) with
  | none =>
      simp only [getEntry_page, getEntry_of_none hentry, bind, Except.bind] at h
      obtain rfl := Except.error.inj h
      decide
  | some entry =>
      simp only [getEntry_page, getEntry_of_some hentry, bind, Except.bind] at h
      split_ifs at h <;> obtain rfl := Except.error.inj h <;> decide

/-- The guard refuses an address with one of the memory faults. -/
theorem guard_mem {mmu : MMU} {isWrite : Bool} {va : Word} {e : Exception}
    (h : mmu.guard isWrite va = some e) : e ∈ Exception.memoryFaults := by
  unfold guard at h
  cases ht : mmu.translateAddress va isWrite with
  | error e' =>
      rw [ht] at h
      obtain rfl := Option.some.inj h
      exact translateAddress_error_mem ht
  | ok pa =>
      simp only [ht] at h
      split_ifs at h <;> obtain rfl := Option.some.inj h <;> decide

/-- The MMUs with the page table, the mode and the size of `origin` have its
guard. -/
theorem SameLayout.guard_eq {origin mmu : MMU} (h : origin.SameLayout mmu) :
    mmu.guard = origin.guard :=
  MMU.guard_eq h.pageTable h.privilegeMode h.size

/-- `e` is what `origin` refuses some address with. -/
def Refuses (origin : MMU) (e : Exception) : Prop :=
  ∃ isWrite va, origin.guard isWrite va = some e

variable {origin : MMU}

theorem refuses_of_read {mmu : MMU} (h : origin.SameLayout mmu) {va : Word} {e : Exception}
    (he : mmu.read va = .error e) : origin.Refuses e := by
  cases hg : mmu.guard false va with
  | some e' =>
      rw [read_of_guard_some hg] at he
      obtain rfl := Except.error.inj he
      rw [h.guard_eq] at hg
      exact ⟨false, va, hg⟩
  | none =>
      obtain ⟨b, hb⟩ := (read_ok_iff_reaches mmu va).mpr ((guard_eq_none_iff mmu false va).mp hg)
      rw [hb] at he
      contradiction

theorem throwsWithin_read (va : Word) :
    ThrowsWithin origin.SameLayout origin.Refuses (tries (·.read va)) :=
  .tries fun _ h _ he => refuses_of_read h he

theorem throwsWithin_write (va : Word) (b : Byte) :
    ThrowsWithin origin.SameLayout origin.Refuses (write va b) := by
  intro mmu h
  refine ⟨IsTrans.trans _ _ _ h (keeps_layout va b mmu), fun e he => ?_⟩
  cases hg : mmu.guard true va with
  | some e' =>
      rw [run_write_of_guard_some b hg] at he
      obtain rfl := Except.error.inj he
      rw [h.guard_eq] at hg
      exact ⟨true, va, hg⟩
  | none =>
      rw [run_write_of_reaches b ((guard_eq_none_iff mmu true va).mp hg)] at he
      contradiction

theorem throwsWithin_readWord (va : Word) :
    ThrowsWithin origin.SameLayout origin.Refuses (tries (·.readWord va)) := by
  rw [tries_readWord]
  exact .bind (throwsWithin_read va) fun _ => .bind (throwsWithin_read (va + 1)) fun _ =>
    .bind (throwsWithin_read (va + 2)) fun _ => .bind (throwsWithin_read (va + 3)) fun _ => .pure _

theorem throwsWithin_writeWord (va w : Word) :
    ThrowsWithin origin.SameLayout origin.Refuses (writeWord va w) :=
  .bind (throwsWithin_write _ _) fun _ => .bind (throwsWithin_write _ _) fun _ =>
    .bind (throwsWithin_write _ _) fun _ => throwsWithin_write _ _

end MMU

/-! ## a cycle -/

/-- A cycle throws a rejection of its word, or what the MMU refuses some
address with. -/
theorem Pipeline.error_runCycle_cases {s : Pipeline} {e : Exception}
    (h : outcome (runCycle.run s) = .error e) : Core.Rejection e ∨ s.mmu.Refuses e := by
  cases hread : s.mmu.readWord s.registerBank.pc with
  | error e' =>
      obtain ⟨s', hrun, -⟩ := runCycle_of_fetch_error hread
      rw [hrun] at h
      obtain rfl := Except.error.inj h
      have hthrown := (MMU.throwsWithin_readWord s.registerBank.pc s.mmu (refl s.mmu)).2 e'
      rw [run_tries, hread] at hthrown
      exact .inr (hthrown rfl)
  | ok w =>
      rw [outcome_runCycle_of_fetch hread] at h
      rcases Core.finish_cases w s.core.advance with ⟨v, r, hrun⟩ | ⟨r, hrun⟩ |
        ⟨e', r, hrej, hrun⟩ | ⟨-, hrun⟩
      · rw [hrun] at h
        contradiction
      · rw [hrun] at h
        contradiction
      · rw [hrun] at h
        obtain rfl := Except.error.inj h
        exact .inl hrej
      · rw [hrun, outcome_zoom] at h
        exact .inr ((MMU.throwsWithin_writeWord _ _ s.mmu (refl s.mmu)).2 e h)

/-- Either way it is one of the exceptions of a cycle. -/
theorem Pipeline.error_mem {s : Pipeline} {e : Exception}
    (h : outcome (runCycle.run s) = .error e) :
    e ∈ Exception.rejections ++ Exception.memoryFaults := by
  rw [List.mem_append]
  rcases error_runCycle_cases h with hrej | ⟨isWrite, va, hg⟩
  · exact .inl (Exception.mem_rejections hrej)
  · exact .inr (MMU.guard_mem hg)

/-- What a word other than a store is rejected with, if it is: the registers
have no say in it. -/
def rejection (w : Word) : Option Exception :=
  match decode w with
  | .error e => some e
  | .ok (.rType _) =>
    if funct3 w = 0 then none else some (.invalidArgument "Unsupported R-Type funct3")
  | .ok (.bType _) =>
    if funct3 w = 0 ∨ funct3 w = 1 then none
    else some (.invalidArgument "Unsupported B-Type funct3")
  | .ok (.jType inst) =>
    if getImmediateJ inst = 0 then some (.endOfProgramException "End of program reached") else none
  | .ok _ => none

/-- The rest of a cycle throws exactly what its word is rejected with. -/
theorem Core.outcome_finish_of_not_store {w : Word} (h : opcode w ≠ 0x23) (c : Core) :
    outcome ((finish w).run c) = match rejection w with
      | some e => .error e
      | none => .ok () := by
  unfold rejection
  rcases opcode_cases w with hop | hop | hop | hop | hop | hop | hop
  · by_cases hf : funct3 w = 0
    · rw [run_finish_reg c hop (if_pos hf), decode_reg hop]
      simp only [if_pos hf, outcome_ok]
    · rw [run_finish_reg_error c hop hf, decode_reg hop]
      simp only [if_neg hf, outcome_error]
  · rw [run_finish_imm c hop, decode_imm hop, outcome_ok]
  · exact absurd hop h
  · cases ht : takesB w c.x with
    | some taken =>
        have hf : funct3 w = 0 ∨ funct3 w = 1 := by
          by_contra hno
          rw [(takesB_eq_none_iff w c.x).mpr hno] at ht
          contradiction
        rw [run_finish_branch c hop ht, decode_branch hop]
        simp only [if_pos hf, outcome_ok]
    | none =>
        have hf := (takesB_eq_none_iff w c.x).mp ht
        rw [run_finish_branch_error c hop ht, decode_branch hop]
        simp only [if_neg hf, outcome_error]
  · rw [run_finish_upper c hop, decode_upper hop, outcome_ok]
  · by_cases hi : getImmediateJ ⟨w⟩ = 0
    · rw [run_finish_jump_end c hop hi, decode_jump hop]
      simp only [if_pos hi, outcome_error]
    · rw [run_finish_jump c hop hi, decode_jump hop]
      simp only [if_neg hi, outcome_ok]
  · rw [run_finish_unsupported c hop, hop, outcome_error]

/-! ## a CPU with one page -/

/-- A CPU that has been through any loads and cycles refuses an address beyond
its page for lack of an entry, and one in its page for lack of memory. -/
theorem CPU.Attainable.guard_cases {memorySize : Nat} {garbage : Uninitialized} {self : CPU}
    (h : Attainable memorySize garbage self) {isWrite : Bool} {va : Word} {e : Exception}
    (hg : self.pipeline.mmu.guard isWrite va = some e) :
    4096 ≤ va.toNat ∧ e = .noEntry ∨
    va.toNat < 4096 ∧ memorySize ≤ va.toNat ∧
      e = if isWrite then .writeOutOfRange else .readOutOfRange := by
  unfold MMU.guard at hg
  by_cases hlow : va.toNat < 4096
  · have hgrants := MMU.grants_of_lt h.mapsFirstPage isWrite hlow
    have hsize : self.pipeline.mmu.physicalMemory.size = memorySize := h.length_memory
    rw [MMU.translateAddress_of_grants hgrants, MMU.physical_of_lt h.mapsFirstPage hlow] at hg
    simp only [hsize] at hg
    split_ifs at hg with hfit hwrite
    · obtain rfl := Option.some.inj hg
      exact .inr ⟨hlow, Nat.le_of_not_lt hfit, (if_pos hwrite).symm⟩
    · obtain rfl := Option.some.inj hg
      exact .inr ⟨hlow, Nat.le_of_not_lt hfit, (if_neg hwrite).symm⟩
  · have hpage := MMU.page_ne_of_le (Nat.le_of_not_lt hlow)
    have hnone : self.pipeline.mmu.pageTable.entries (va &&& 0xFFFFF000) = none := by
      rw [h.sameLayout.pageTable]
      exact if_neg hpage
    have hthrows : self.pipeline.mmu.translateAddress va isWrite = .error .noEntry := by
      rw [MMU.translateAddress, MMU.getEntry_page, MMU.getEntry_of_none hnone]
      rfl
    rw [hthrows] at hg
    obtain rfl := Option.some.inj hg
    exact .inl ⟨Nat.le_of_not_lt hlow, rfl⟩

/-- What a cycle of it throws. -/
theorem CPU.Attainable.error_cases {memorySize : Nat} {garbage : Uninitialized} {self : CPU}
    (h : Attainable memorySize garbage self) {e : Exception}
    (he : outcome (CPU.runCycle.run self) = .error e) :
    e ∈ Exception.rejections ∨ e = .noEntry ∨
      memorySize < 4096 ∧ (e = .readOutOfRange ∨ e = .writeOutOfRange) := by
  rw [CPU.outcome_runCycle] at he
  rcases Pipeline.error_runCycle_cases he with hrej | ⟨isWrite, va, hg⟩
  · exact .inl (Exception.mem_rejections hrej)
  · rcases h.guard_cases hg with ⟨-, rfl⟩ | ⟨hlow, hout, rfl⟩
    · exact .inr (.inl rfl)
    · refine .inr (.inr ⟨by omega, ?_⟩)
      cases isWrite with
      | true => exact .inr rfl
      | false => exact .inl rfl

/-- **The exceptions of a cycle**: four rejections and six memory faults, with
these texts and no others.  On a CPU that has been through any loads and cycles
the only memory fault is the lack of an entry, or, where memory is smaller than
a page, of memory: no access violation and no invalid entry ever arises. -/
theorem runCycle_exceptions {memorySize : Nat} {garbage : Uninitialized} {self : CPU}
    (h : CPU.Attainable memorySize garbage self) (s : Pipeline) :
    (∀ e, outcome (Pipeline.runCycle.run s) = .error e →
      e ∈ Exception.rejections ++ Exception.memoryFaults) ∧
    (∀ e, outcome (CPU.runCycle.run self) = .error e →
      e ∈ Exception.rejections ∨ e = .noEntry ∨
      memorySize < 4096 ∧ (e = .readOutOfRange ∨ e = .writeOutOfRange)) :=
  ⟨fun _ he => Pipeline.error_mem he, fun _ he => h.error_cases he⟩

/-- The third cycle of the two-instruction program of the test suite throws. -/
theorem runCycle_exceptions_two :
    ∃ e, outcome (CPU.runCycle.run (after CPU.runCycle 2 CPU.bootTwo)) = .error e ∧
      (e ∈ Exception.rejections ∨ e = .noEntry ∨
        12 < 4096 ∧ (e = .readOutOfRange ∨ e = .writeOutOfRange)) := by
  have hthrows : outcome (CPU.runCycle.run (after CPU.runCycle 2 CPU.bootTwo)) =
      .error (.endOfProgramException "End of program reached") := by decide +kernel
  exact ⟨_, hthrows,
    (runCycle_exceptions (CPU.attainable_bootTwo.cycles 2) CPU.bootTwo.pipeline).2 _ hthrows⟩

end VirtuV
