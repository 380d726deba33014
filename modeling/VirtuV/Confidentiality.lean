import VirtuV.Integrity

/-!
# VirtuV.Confidentiality

What a program can learn of memory it has no readable mapping for: nothing.

Two machines are `Indistinct` when they differ in nothing but bytes of frames
that no readable page-aligned entry maps.  A read is answered alike on both,
since a granted one goes to a readable frame; a write stores the same byte in
the same place; the rest of the pipeline does not look at memory.  So every
section of a cycle moves two indistinct machines together, and so does a run.
-/

namespace VirtuV

open Stateful

/-! ## the MMU -/

namespace MMU

/-- Two MMUs with the page table `table` and the mode `mode` that agree on the
bytes of the readable frames. -/
structure Indistinct (table : PageTable) (mode : PrivilegeMode) (m m' : MMU) : Prop where
  pageTable : m.pageTable = table
  pageTable' : m'.pageTable = table
  privilegeMode : m.privilegeMode = mode
  privilegeMode' : m'.privilegeMode = mode
  size : m.physicalMemory.size = m'.physicalMemory.size
  readable : ∀ a : Nat, a < 2 ^ 32 → table.Maps (·.isReadable mode) (BitVec.ofNat 32 a) →
    m.physicalMemory.memory[a]? = m'.physicalMemory.memory[a]?

namespace Indistinct

variable {table : PageTable} {mode : PrivilegeMode} {m m' : MMU}

/-- Translation looks at the page table and the mode alone. -/
theorem translateAddress_eq (h : Indistinct table mode m m') (va : Word) (isWrite : Bool) :
    m.translateAddress va isWrite = m'.translateAddress va isWrite := by
  unfold translateAddress
  rw [h.pageTable, h.pageTable', h.privilegeMode, h.privilegeMode']

theorem grants_eq (h : Indistinct table mode m m') (isWrite : Bool) (va : Word) :
    m.grants isWrite va = m'.grants isWrite va := by
  unfold grants
  rw [h.pageTable, h.pageTable', h.privilegeMode, h.privilegeMode']

theorem physical_eq (h : Indistinct table mode m m') (va : Word) :
    m.physical va = m'.physical va := by
  unfold physical
  rw [h.pageTable, h.pageTable']

/-- A read is answered alike: a granted one goes to a readable frame. -/
theorem read_eq (h : Indistinct table mode m m') (va : Word) : m.read va = m'.read va := by
  unfold MMU.read
  rw [h.translateAddress_eq]
  cases hg : m.grants false va with
  | false =>
      rw [h.grants_eq] at hg
      obtain ⟨e, -, he⟩ := translateAddress_of_not_grants hg
      rw [he]
      rfl
  | true =>
      have hmaps := maps_of_grants hg
      rw [h.pageTable, h.privilegeMode, h.physical_eq] at hmaps
      rw [h.grants_eq] at hg
      rw [translateAddress_of_grants hg]
      have hbyte := h.readable (m'.physical va).toNat (m'.physical va).isLt
        (by rw [BitVec.ofNat_toNat, BitVec.setWidth_eq]; exact hmaps)
      have hsize : m.physicalMemory.memory.length = m'.physicalMemory.memory.length := h.size
      simp only [bind, Except.bind, PhysicalMemory.read]
      by_cases hlt : (m'.physical va).toNat < m'.physicalMemory.memory.length
      · rw [List.getElem?_eq_getElem hlt, List.getElem?_eq_getElem (hsize ▸ hlt)] at hbyte
        rw [dif_pos hlt, dif_pos (hsize ▸ hlt), Option.some.inj hbyte]
      · rw [dif_neg hlt, dif_neg (hsize ▸ hlt)]

theorem readWord_eq (h : Indistinct table mode m m') (va : Word) :
    m.readWord va = m'.readWord va := by
  unfold readWord
  rw [h.read_eq, h.read_eq, h.read_eq, h.read_eq]

/-- Storing the same byte in the same place keeps two MMUs indistinct. -/
theorem store (h : Indistinct table mode m m') (pa : Word) (b : Byte) :
    Indistinct table mode (m.store pa b) (m'.store pa b) where
  pageTable := (store_pageTable m pa b).trans h.pageTable
  pageTable' := (store_pageTable m' pa b).trans h.pageTable'
  privilegeMode := (store_privilegeMode m pa b).trans h.privilegeMode
  privilegeMode' := (store_privilegeMode m' pa b).trans h.privilegeMode'
  size := by
    have hsize : m.physicalMemory.memory.length = m'.physicalMemory.memory.length := h.size
    rw [PhysicalMemory.size, PhysicalMemory.size, store_memory, store_memory, List.length_set,
      List.length_set, hsize]
  readable a ha hmaps := by
    have hsize : m.physicalMemory.memory.length = m'.physicalMemory.memory.length := h.size
    rw [store_memory, store_memory, List.getElem?_set, List.getElem?_set, hsize,
      h.readable a ha hmaps]

end Indistinct

/-- A write stores the same byte in the same place of both. -/
theorem coupled_write {table : PageTable} {mode : PrivilegeMode} (va : Word) (b : Byte) :
    Coupled (Indistinct table mode) (write va b) (write va b) := by
  intro m m' h
  unfold write
  rw [EStateM.run_bind, EStateM.run_bind, run_tries, run_tries, h.translateAddress_eq]
  cases m'.translateAddress va true with
  | error e => exact ⟨rfl, h⟩
  | ok pa =>
      have hsize : m.physicalMemory.memory.length = m'.physicalMemory.memory.length := h.size
      simp only [EStateM.run_bind, run_tries, PhysicalMemory.write, hsize]
      by_cases hlt : pa.toNat < m'.physicalMemory.memory.length
      · simp only [if_pos hlt, EStateM.run_modify]
        exact ⟨rfl, h.store pa b⟩
      · simp only [if_neg hlt]
        exact ⟨rfl, h⟩

theorem coupled_writeWord {table : PageTable} {mode : PrivilegeMode} (va w : Word) :
    Coupled (Indistinct table mode) (writeWord va w) (writeWord va w) :=
  .bind (coupled_write _ _) fun _ => .bind (coupled_write _ _) fun _ =>
    .bind (coupled_write _ _) fun _ => coupled_write _ _

end MMU

/-! ## the pipeline -/

/-- Two pipelines that are the same, latches included, but for their memories,
which are indistinct. -/
structure Indistinct (table : PageTable) (mode : PrivilegeMode) (s t : Pipeline) : Prop where
  registerBank : s.registerBank = t.registerBank
  fetchStage : s.fetchStage = t.fetchStage
  decodeStage : s.decodeStage = t.decodeStage
  executeStage : s.executeStage = t.executeStage
  memAccesStage : s.memAccesStage = t.memAccesStage
  writeBackStage : s.writeBackStage = t.writeBackStage
  mmu : s.mmu.Indistinct table mode t.mmu

section Discreet

variable {table : PageTable} {mode : PrivilegeMode}

/-- Two pipelines are indistinct when one is the other with an indistinct MMU
in its place. -/
theorem indistinct_iff (s t : Pipeline) : Indistinct table mode s t ↔
    ∃ mmu, t = { s with mmu } ∧ s.mmu.Indistinct table mode mmu := by
  constructor
  · intro h
    refine ⟨t.mmu, ?_, h.mmu⟩
    rw [h.registerBank, h.fetchStage, h.decodeStage, h.executeStage, h.memAccesStage,
      h.writeBackStage]
  · rintro ⟨mmu, rfl, h⟩
    exact ⟨rfl, rfl, rfl, rfl, rfl, rfl, h⟩

/-- A program that cannot tell indistinct pipelines apart. -/
abbrev Discreet {α : Type} (table : PageTable) (mode : PrivilegeMode) (x : PipelineM α) : Prop :=
  Coupled (Indistinct table mode) x x

/-! ### discreet primitives -/

/-- What does not look at the MMU is read alike. -/
theorem discreet_reads {α : Type} {p : Pipeline → α} (hp : ∀ s mmu, p { s with mmu } = p s) :
    Discreet table mode (reads p) := by
  refine .reads fun s t h => ?_
  obtain ⟨mmu, rfl, -⟩ := (indistinct_iff s t).mp h
  exact (hp s mmu).symm

theorem discreet_tries {α : Type} {p : Pipeline → Except Exception α}
    (hp : ∀ s mmu, p { s with mmu } = p s) : Discreet table mode (tries p) := by
  refine .tries fun s t h => ?_
  obtain ⟨mmu, rfl, -⟩ := (indistinct_iff s t).mp h
  exact (hp s mmu).symm

/-- What leaves the MMU alone is done alike. -/
theorem discreet_modify {f : Pipeline → Pipeline}
    (hf : ∀ s mmu, f { s with mmu } = { f s with mmu }) :
    Discreet table mode (modify f : PipelineM Unit) := by
  refine .modify fun s t h => ?_
  obtain ⟨mmu, rfl, hind⟩ := (indistinct_iff s t).mp h
  have hmmu := congrArg Pipeline.mmu (hf s s.mmu)
  replace hmmu : (f s).mmu = s.mmu := hmmu
  rw [indistinct_iff, hf, hmmu]
  exact ⟨mmu, rfl, hind⟩

/-- A word is read alike. -/
theorem discreet_readWord (va : Word) :
    Discreet table mode (tries fun s : Pipeline => s.mmu.readWord va) :=
  .tries fun _ _ h => h.mmu.readWord_eq va

/-- A word is written alike. -/
theorem discreet_writeWord (va w : Word) :
    Discreet table mode
      (zoom Pipeline.mmu (fun mmu s => { s with mmu }) (MMU.writeWord va w)) := by
  refine .zoom (MMU.coupled_writeWord va w) (fun _ _ h => h.mmu) fun s t m m' h hm => ?_
  exact ⟨h.registerBank, h.fetchStage, h.decodeStage, h.executeStage, h.memAccesStage,
    h.writeBackStage, hm⟩

theorem discreet_readRegister (r : BitVec 5) : Discreet table mode (readRegister r) :=
  discreet_tries fun _ _ => rfl

theorem discreet_writeRd (r : BitVec 5) (value : Word) :
    Discreet table mode (WriteBackStage.writeRd r value) := by
  unfold WriteBackStage.writeRd writeRegister
  split
  · exact .bind (discreet_tries fun _ _ => rfl) fun _ => discreet_modify fun _ _ => rfl
  · exact .pure _

/-- Assigning to a field of the execute stage. -/
theorem discreet_assign (f : ExecuteStage → ExecuteStage) :
    Discreet table mode (ExecuteStage.assign f) :=
  discreet_modify fun _ _ => rfl

/-! ### discreet sections -/

theorem discreet_runFetch : Discreet table mode Pipeline.runFetch := by
  unfold Pipeline.runFetch FetchStage.process
  refine .bind (.bind (discreet_reads fun _ _ => rfl) fun pc => ?_) fun _ =>
    discreet_reads fun _ _ => rfl
  refine .bind (discreet_readWord pc) fun w => ?_
  exact .bind (discreet_modify fun _ _ => rfl) fun _ => discreet_modify fun _ _ => rfl

theorem discreet_runDecode (w : Word) : Discreet table mode (Pipeline.runDecode w) := by
  unfold Pipeline.runDecode DecodeStage.process
  refine .bind (discreet_modify fun _ _ => rfl) fun _ => .bind ?_ fun _ =>
    discreet_reads fun _ _ => rfl
  refine .bind (discreet_reads fun _ _ => rfl) fun w => ?_
  have hset : ∀ inst, Discreet table mode (DecodeStage.setDecoded inst) :=
    fun inst => discreet_modify fun _ _ => rfl
  dsimp only
  split_ifs
  all_goals first | exact hset _ | exact .throw _

theorem discreet_processR (inst : DecodedInstruction .rType) :
    Discreet table mode (ExecuteStage.processR inst) := by
  unfold ExecuteStage.processR
  refine .bind (discreet_readRegister _) fun rs1 => .bind (discreet_assign _) fun _ => ?_
  refine .bind (discreet_readRegister _) fun rs2 => .bind (discreet_assign _) fun _ => ?_
  split
  · exact discreet_assign _
  · exact .throw _

theorem discreet_processI (inst : DecodedInstruction .iType) :
    Discreet table mode (ExecuteStage.processI inst) := by
  unfold ExecuteStage.processI
  refine .bind (discreet_readRegister _) fun rs1 => .bind (discreet_assign _) fun _ => ?_
  refine .bind (discreet_assign _) fun _ => ?_
  split
  all_goals first | exact discreet_assign _ | exact .throw _

theorem discreet_processB (inst : DecodedInstruction .bType) :
    Discreet table mode (ExecuteStage.processB inst) := by
  unfold ExecuteStage.processB
  refine .bind (discreet_readRegister _) fun rs1 => .bind (discreet_assign _) fun _ => ?_
  refine .bind (discreet_readRegister _) fun rs2 => .bind (discreet_assign _) fun _ => ?_
  refine .bind (discreet_assign _) fun _ => ?_
  have hbranch : ∀ taken : Bool, Discreet table mode (do
      ExecuteStage.setBranchTaken taken
      let branchTaken ← reads (·.executeStage.result.branchTaken)
      ExecuteStage.setBranchTarget (if branchTaken then getImmediateB inst else 0)) :=
    fun taken => .bind (discreet_assign _) fun _ => .bind (discreet_reads fun _ _ => rfl)
      fun _ => discreet_assign _
  split
  · exact hbranch _
  · exact hbranch _
  · exact .throw _

theorem discreet_processS (inst : DecodedInstruction .sType) :
    Discreet table mode (ExecuteStage.processS inst) := by
  unfold ExecuteStage.processS
  refine .bind (discreet_readRegister _) fun rs1 => .bind (discreet_assign _) fun _ => ?_
  refine .bind (discreet_readRegister _) fun rs2 => .bind (discreet_assign _) fun _ => ?_
  exact .bind (discreet_assign _) fun _ => discreet_assign _

theorem discreet_processU (inst : DecodedInstruction .uType) :
    Discreet table mode (ExecuteStage.processU inst) := by
  unfold ExecuteStage.processU
  exact .bind (discreet_assign _) fun _ => discreet_assign _

theorem discreet_processJ (inst : DecodedInstruction .jType) :
    Discreet table mode (ExecuteStage.processJ inst) := by
  unfold ExecuteStage.processJ
  refine .bind (discreet_assign _) fun _ => .bind (discreet_assign _) fun _ => ?_
  refine .bind (discreet_reads fun _ _ => rfl) fun pc => .bind (discreet_assign _) fun _ => ?_
  refine .bind (discreet_reads fun _ _ => rfl) fun target => ?_
  refine .bind (discreet_reads fun _ _ => rfl) fun pc => ?_
  split
  · exact .throw _
  · exact .pure _

theorem discreet_runExecute (inst : DecodedInstructionVariant) :
    Discreet table mode (Pipeline.runExecute inst) := by
  unfold Pipeline.runExecute ExecuteStage.process
  refine .bind (discreet_modify fun _ _ => rfl) fun _ => .bind ?_ fun _ =>
    discreet_reads fun _ _ => rfl
  refine .bind (discreet_reads fun _ _ => rfl) fun inst => ?_
  split
  · exact .throw _
  · cases inst with
    | invalidType inst => exact .throw _
    | rType inst => exact discreet_processR inst
    | iType inst => exact discreet_processI inst
    | sType inst => exact discreet_processS inst
    | bType inst => exact discreet_processB inst
    | uType inst => exact discreet_processU inst
    | jType inst => exact discreet_processJ inst

theorem discreet_runMemoryAccess (inst : DecodedInstructionVariant) (r : ExecutionResult) :
    Discreet table mode (Pipeline.runMemoryAccess inst r) := by
  unfold Pipeline.runMemoryAccess MemoryAccessStage.process
  have hassign : ∀ f, Discreet table mode (MemoryAccessStage.assign f) :=
    fun f => discreet_modify fun _ _ => rfl
  refine .bind (discreet_modify fun _ _ => rfl) fun _ => ?_
  refine .bind (discreet_modify fun _ _ => rfl) fun _ => .bind ?_ fun _ =>
    discreet_reads fun _ _ => rfl
  refine .bind (hassign _) fun _ => .bind (hassign _) fun _ => ?_
  refine .bind (discreet_reads fun _ _ => rfl) fun address => ?_
  refine .bind (discreet_reads fun _ _ => rfl) fun inst => ?_
  cases inst with
  | iType inst =>
      dsimp only
      split
      · exact .bind (discreet_readWord _) fun w => hassign _
      · exact .pure _
  | sType inst =>
      refine .bind (discreet_tries fun _ _ => rfl) fun s => ?_
      refine .bind (discreet_readRegister _) fun data => ?_
      exact .bind (discreet_writeWord _ _) fun _ => hassign _
  | _ => exact .pure _

theorem discreet_runWriteBack (inst : DecodedInstructionVariant) (r : ExecutionResult)
    (m : MemoryAccessResult) : Discreet table mode (Pipeline.runWriteBack inst r m) := by
  unfold Pipeline.runWriteBack WriteBackStage.process
  refine .bind (discreet_modify fun _ _ => rfl) fun _ => ?_
  refine .bind (discreet_modify fun _ _ => rfl) fun _ => ?_
  refine .bind (discreet_modify fun _ _ => rfl) fun _ => ?_
  refine .bind (discreet_reads fun _ _ => rfl) fun self => ?_
  split
  · exact discreet_writeRd _ _
  · split
    · split
      · exact discreet_writeRd _ _
      · exact .pure _
    · exact discreet_writeRd _ _
  · exact discreet_writeRd _ _
  · exact discreet_writeRd _ _
  · exact .pure _

/-- A cycle cannot tell indistinct pipelines apart. -/
theorem discreet_runCycle : Discreet table mode Pipeline.runCycle := by
  unfold Pipeline.runCycle Pipeline.runToExecute
  refine .bind (.bind discreet_runFetch fun w => .bind (discreet_runDecode w) fun inst =>
    .bind (discreet_runExecute inst) fun _ => .pure _) fun p => ?_
  exact .bind (discreet_runMemoryAccess _ _) fun m => discreet_runWriteBack _ _ m

end Discreet

/-- **Memory confidentiality**: machines that differ in nothing but bytes of
frames with no readable mapping report the same outcome in every cycle of
every run, exceptions and their texts included, and after any number of cycles
still differ in nothing else. -/
theorem runCycle_noninterference (table : PageTable) (mode : PrivilegeMode) (s t : Pipeline)
    (h : Indistinct table mode s t) (n : Nat) :
    outcome (Pipeline.runCycle.run (after Pipeline.runCycle n s)) =
      outcome (Pipeline.runCycle.run (after Pipeline.runCycle n t)) ∧
    Indistinct table mode (after Pipeline.runCycle n s) (after Pipeline.runCycle n t) := by
  have hn := discreet_runCycle.after n h
  exact ⟨(discreet_runCycle _ _ hn).1, hn⟩

/-- A fresh CPU of two frames, and the same with a byte of the second frame,
which no entry maps, replaced. -/
theorem indistinct_secondFrame (b : Byte) :
    Indistinct (CPU.new 8192 ⟨0, 0, 0⟩).pipeline.mmu.pageTable .machine
      (CPU.new 8192 ⟨0, 0, 0⟩).pipeline
      { (CPU.new 8192 ⟨0, 0, 0⟩).pipeline with
        mmu := (CPU.new 8192 ⟨0, 0, 0⟩).pipeline.mmu.store 4096 b } := by
  refine ⟨rfl, rfl, rfl, rfl, rfl, rfl, rfl, rfl, rfl, rfl, ?_, fun a ha hmaps => ?_⟩
  · rw [PhysicalMemory.size, PhysicalMemory.size, MMU.store_memory, List.length_set]
  · obtain ⟨key, e, -, hentry, -, hframe⟩ := hmaps
    have hne : 4096 ≠ a := by
      rintro rfl
      have hentries : (CPU.new 8192 ⟨0, 0, 0⟩).pipeline.mmu.pageTable.entries key =
          if key = 0 then some ⟨0x1F⟩ else none := rfl
      rw [hentries] at hentry
      obtain rfl : e = ⟨0x1F⟩ := by
        split at hentry
        · exact (Option.some.inj hentry).symm
        · contradiction
      revert hframe
      decide
    rw [MMU.store_memory]
    exact (List.getElem?_set_ne hne).symm

/-- Three cycles of these two machines. -/
theorem runCycle_noninterference_secondFrame :
    outcome (Pipeline.runCycle.run
        (after Pipeline.runCycle 3 (CPU.new 8192 ⟨0, 0, 0⟩).pipeline)) =
      outcome (Pipeline.runCycle.run (after Pipeline.runCycle 3
        { (CPU.new 8192 ⟨0, 0, 0⟩).pipeline with
          mmu := (CPU.new 8192 ⟨0, 0, 0⟩).pipeline.mmu.store 4096 1 })) :=
  (runCycle_noninterference _ _ _ _ (indistinct_secondFrame 1) 3).1

end VirtuV
