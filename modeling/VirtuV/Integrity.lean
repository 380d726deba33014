import VirtuV.Cycle

/-!
# VirtuV.Integrity

What any sequence of cycles and MMU accesses keeps, and which bytes it can
change.

What every byte write keeps, word writes, cycles and loads keep.  There are two
such relations between the MMU before and after: under `SameLayout` the page
table, the mode and the size of memory are the same; under `Confined` table and
mode are, and a byte differs only if a writable page-aligned entry maps its
frame.  Both are preorders, so every sequence of operations keeps them, the
ones that throw included.
-/

namespace VirtuV

open Stateful

/-! ## frames -/

/-- A page-aligned entry that satisfies `allows` maps the frame of the physical
address `a`. -/
def PageTable.Maps (table : PageTable) (allows : PageTableEntry → Bool) (a : Word) : Prop :=
  ∃ key e, key &&& 0xFFF = 0 ∧ table.entries key = some e ∧ allows e = true ∧
    e.entryValue &&& 0xFFFFF000 = a &&& 0xFFFFF000

/-- A granted access goes to a frame that an entry permitting it maps. -/
theorem MMU.maps_of_grants {mmu : MMU} {isWrite : Bool} {va : Word}
    (h : mmu.grants isWrite va = true) :
    mmu.pageTable.Maps (PageTableEntry.permits (accessBit isWrite) · mmu.privilegeMode)
      (mmu.physical va) := by
  obtain ⟨e, hentry, hperm, hphys⟩ := (MMU.grants_iff mmu isWrite va).mp h
  refine ⟨va &&& 0xFFFFF000, e, page_and_offset va, hentry, hperm, ?_⟩
  rw [hphys, PageTableEntry.frame_getPhysicalAddress]

/-! ## from one write to all -/

/-- The MMU a load leaves is the one the copy loop ends in. -/
theorem mmu_loadProgram (bytes : List Byte) (self : CPU) :
    (self.loadProgram (.contents bytes)).2.pipeline.mmu =
      final ((CPU.copyToMemory 0 bytes).run self.pipeline.mmu) := by
  rw [CPU.loadProgram]
  cases (CPU.copyToMemory 0 bytes).run self.pipeline.mmu with
  | ok a mmu => rfl
  | error e mmu => rfl

section OfWrite

variable {R : MMU → MMU → Prop} [IsPreorder MMU R]
  (hwrite : ∀ va b, Keeps R (MMU.write va b))

include hwrite

theorem MMU.keeps_writeWord_of_write (va w : Word) : Keeps R (writeWord va w) :=
  .bind (hwrite _ _) fun _ => .bind (hwrite _ _) fun _ => .bind (hwrite _ _) fun _ => hwrite _ _

theorem MMU.keeps_copyToMemory_of_write (i : Nat) (bytes : List Byte) :
    Keeps R (CPU.copyToMemory i bytes) := by
  induction bytes generalizing i with
  | nil => exact .pure _
  | cons byte bytes ih => exact .bind (hwrite _ _) fun _ => ih (i + 1)

/-- What every byte write keeps of the MMU, a cycle keeps. -/
theorem Pipeline.rel_runCycle (s : Pipeline) : R s.mmu (final (runCycle.run s)).mmu := by
  rcases mmu_runCycle s with h | ⟨va, data, h⟩
  · rw [h]
    exact refl s.mmu
  · rw [h]
    exact MMU.keeps_writeWord_of_write hwrite va data s.mmu

/-- What every byte write keeps of the MMU, loading a program keeps. -/
theorem rel_loadProgram (file : ProgramFile) (self : CPU) :
    R self.pipeline.mmu (self.loadProgram file).2.pipeline.mmu := by
  cases file with
  | unopened => exact refl self.pipeline.mmu
  | oversized => exact refl self.pipeline.mmu
  | unallocated => exact refl self.pipeline.mmu
  | unreadable => exact refl self.pipeline.mmu
  | contents bytes =>
      rw [mmu_loadProgram]
      exact MMU.keeps_copyToMemory_of_write hwrite 0 bytes self.pipeline.mmu

end OfWrite

/-! ## what an access keeps -/

namespace MMU

/-- From `m` to `m'` only bytes of writable frames have changed. -/
structure Confined (m m' : MMU) : Prop where
  pageTable : m'.pageTable = m.pageTable
  privilegeMode : m'.privilegeMode = m.privilegeMode
  written : ∀ a : Nat, m'.physicalMemory.memory[a]? ≠ m.physicalMemory.memory[a]? →
    a < 2 ^ 32 ∧ m.pageTable.Maps (·.isWritable m.privilegeMode) (BitVec.ofNat 32 a)

instance : IsPreorder MMU Confined where
  refl _ := ⟨rfl, rfl, fun _ h => absurd rfl h⟩
  trans m₁ m₂ m₃ h₁₂ h₂₃ := by
    refine ⟨h₂₃.pageTable.trans h₁₂.pageTable, h₂₃.privilegeMode.trans h₁₂.privilegeMode,
      fun a ha => ?_⟩
    by_cases h : m₂.physicalMemory.memory[a]? = m₁.physicalMemory.memory[a]?
    · have hlater := h₂₃.written a (h ▸ ha)
      rwa [h₁₂.pageTable, h₁₂.privilegeMode] at hlater
    · exact h₁₂.written a h

/-- A byte stored where a write reaches is one of a writable frame. -/
theorem confined_store {mmu : MMU} {va : Word} (b : Byte) (h : mmu.Reaches true va) :
    mmu.Confined (mmu.store (mmu.physical va) b) where
  pageTable := store_pageTable mmu _ b
  privilegeMode := store_privilegeMode mmu _ b
  written a ha := by
    obtain rfl : (mmu.physical va).toNat = a := by
      by_contra hne
      exact ha (List.getElem?_set_ne hne)
    have hmaps := maps_of_grants h.1
    rw [BitVec.ofNat_toNat, BitVec.setWidth_eq]
    exact ⟨(mmu.physical va).isLt, hmaps⟩

theorem keeps_write (va : Word) (b : Byte) : Keeps Confined (write va b) := by
  intro mmu
  by_cases h : mmu.Reaches true va
  · rw [run_write_of_reaches b h]
    exact confined_store b h
  · obtain ⟨e, -, hrun⟩ := run_write_of_not_reaches b h
    rw [hrun]
    exact refl mmu

theorem keeps_writeWord (va w : Word) : Keeps Confined (writeWord va w) :=
  keeps_writeWord_of_write keeps_write va w

end MMU

/-- Loading a program, successfully or not, changes only bytes of writable
frames. -/
theorem confined_loadProgram (file : ProgramFile) (self : CPU) :
    self.pipeline.mmu.Confined (self.loadProgram file).2.pipeline.mmu :=
  rel_loadProgram MMU.keeps_write file self

/-! ## what no access changes -/

namespace MMU

/-- Page table, mode and size of memory are the same. -/
structure SameLayout (m m' : MMU) : Prop where
  pageTable : m'.pageTable = m.pageTable
  privilegeMode : m'.privilegeMode = m.privilegeMode
  size : m'.physicalMemory.size = m.physicalMemory.size

instance : IsPreorder MMU SameLayout where
  refl _ := ⟨rfl, rfl, rfl⟩
  trans _ _ _ h₁₂ h₂₃ :=
    ⟨h₂₃.pageTable.trans h₁₂.pageTable, h₂₃.privilegeMode.trans h₁₂.privilegeMode,
      h₂₃.size.trans h₁₂.size⟩

/-- Accesses reach memory in the one exactly where they do in the other. -/
theorem SameLayout.reaches_iff {m m' : MMU} (h : m.SameLayout m') (isWrite : Bool) (va : Word) :
    m'.Reaches isWrite va ↔ m.Reaches isWrite va := by
  have hsize : m'.physicalMemory.memory.length = m.physicalMemory.memory.length := h.size
  unfold Reaches grants physical
  rw [h.pageTable, h.privilegeMode, hsize]

theorem keeps_layout (va : Word) (b : Byte) : Keeps SameLayout (write va b) := by
  intro mmu
  by_cases h : mmu.Reaches true va
  · rw [run_write_of_reaches b h]
    exact ⟨store_pageTable mmu _ b, store_privilegeMode mmu _ b, List.length_set⟩
  · obtain ⟨e, -, hrun⟩ := run_write_of_not_reaches b h
    rw [hrun]
    exact refl mmu

end MMU

/-! ## what any sequence of operations keeps -/

/-- An operation on the machine: a cycle, or a call of the MMU from outside. -/
inductive Operation where
  | runCycle
  | read (va : Word)
  | write (va : Word) (value : Byte)
  | readWord (va : Word)
  | writeWord (va value : Word)
deriving DecidableEq, Repr

/-- Carry out an operation, dropping what it returns. -/
def Operation.perform : Operation → PipelineM Unit
  | runCycle => Pipeline.runCycle
  | read va => do
    let _ ← tries (·.mmu.read va)
  | write va value => zoom Pipeline.mmu (fun mmu s => { s with mmu }) (MMU.write va value)
  | readWord va => do
    let _ ← tries (·.mmu.readWord va)
  | writeWord va value => zoom Pipeline.mmu (fun mmu s => { s with mmu }) (MMU.writeWord va value)

/-- The MMU of the one pipeline is confined from that of the other. -/
def Confined (s s' : Pipeline) : Prop := s.mmu.Confined s'.mmu

instance : IsPreorder Pipeline Confined where
  refl s := refl s.mmu
  trans _ _ _ h₁₂ h₂₃ := IsTrans.trans (r := MMU.Confined) _ _ _ h₁₂ h₂₃

theorem keeps_runCycle : Keeps Confined Pipeline.runCycle :=
  Pipeline.rel_runCycle MMU.keeps_write

theorem keeps_perform (op : Operation) : Keeps Confined op.perform := by
  unfold Operation.perform
  cases op with
  | runCycle => exact keeps_runCycle
  | read va => exact .bind (.tries _) fun _ => .pure _
  | write va value => exact .zoom (MMU.keeps_write va value) fun _ _ h => h
  | readWord va => exact .bind (.tries _) fun _ => .pure _
  | writeWord va value => exact .zoom (MMU.keeps_writeWord va value) fun _ _ h => h

/-- The state after a sequence of operations, each carried on from where the
one before it returned or threw. -/
def afterOperations (ops : List Operation) (s : Pipeline) : Pipeline :=
  afterAll (ops.map Operation.perform) s

theorem confined_afterOperations (ops : List Operation) (s : Pipeline) :
    Confined s (afterOperations ops s) := by
  apply Keeps.afterAll
  intro x hx
  obtain ⟨op, -, rfl⟩ := List.mem_map.mp hx
  exact keeps_perform op

/-- What a writable entry is in USER mode. -/
theorem isWritable_user (e : PageTableEntry) :
    e.isWritable .user = (e.isValid && e.entryValue &&& PageTableEntry.writeBit != 0 &&
      e.entryValue &&& PageTableEntry.userAccessibleBit != 0) := by
  unfold PageTableEntry.isWritable PageTableEntry.permits
  cases e.isValid <;> cases (e.entryValue &&& PageTableEntry.writeBit != 0) <;>
    cases (e.entryValue &&& PageTableEntry.userAccessibleBit != 0) <;> rfl

/-- **Memory integrity**: a byte that a sequence of operations has changed lies
in a frame that a page-aligned entry writable in the mode of the machine maps;
in USER mode, one that is valid, writable and user accessible. -/
theorem afterOperations_integrity (s : Pipeline) (ops : List Operation) (a : Nat)
    (h : (afterOperations ops s).mmu.physicalMemory.memory[a]? ≠
      s.mmu.physicalMemory.memory[a]?) :
    a < 2 ^ 32 ∧
    s.mmu.pageTable.Maps (·.isWritable s.mmu.privilegeMode) (BitVec.ofNat 32 a) ∧
    (s.mmu.privilegeMode = .user → s.mmu.pageTable.Maps
      (fun e => e.isValid && e.entryValue &&& PageTableEntry.writeBit != 0 &&
        e.entryValue &&& PageTableEntry.userAccessibleBit != 0) (BitVec.ofNat 32 a)) := by
  obtain ⟨hlt, hmaps⟩ := (confined_afterOperations ops s).written a h
  refine ⟨hlt, hmaps, fun huser => ?_⟩
  rw [huser] at hmaps
  simpa only [isWritable_user] using hmaps

/-- A direct write of a fresh CPU's first byte. -/
theorem afterOperations_integrity_write :
    (CPU.new 8 ⟨0, 0, 0⟩).pipeline.mmu.pageTable.Maps (·.isWritable .machine) 0 :=
  (afterOperations_integrity (CPU.new 8 ⟨0, 0, 0⟩).pipeline [.runCycle, .write 0 1] 0
    (by decide +kernel)).2.1

end VirtuV
