import VirtuV.Memory
import VirtuV.Lib.Bits
import Mathlib.Order.Basic
import Mathlib.Data.Nat.Find

/-!
# VirtuV.Translation

What an MMU access does, said once: the translation is a total function
`physical` guarded by a decision `grants`, an access *reaches* memory when it
is granted and its physical address exists, and every other access throws a
memory fault and changes nothing.  A word access is its four byte accesses in
order, up to the first that does not reach.

The later modules reason about accesses through these facts and do not look
into `translate_address` again.
-/

namespace VirtuV

open Stateful
open Bits

/-- The exceptions the memory system throws. -/
def Exception.MemoryFault : Exception → Prop
  | pageFaultException _ => True
  | accessViolationException _ => True
  | outOfRange msg => msg = "PhysicalMemory::read - Address out of range" ∨
      msg = "PhysicalMemory::write - Address out of range"
  | _ => False

/-! ## entries -/

namespace PageTableEntry

/-- A page offset is what the page mask leaves over. -/
theorem offsetMask_eq_not : (0xFFF : Word) = ~~~0xFFFFF000 := by decide

/-- The physical address splices the frame bits of the entry with the offset
bits of the virtual address. -/
theorem getPhysicalAddress_eq_splice (e : PageTableEntry) (va : Word) :
    e.getPhysicalAddress va = splice 0xFFFFF000 e.entryValue va := by
  rw [getPhysicalAddress, offsetMask_eq_not, splice]

/-- Translation stays in the entry's frame. -/
theorem frame_getPhysicalAddress (e : PageTableEntry) (va : Word) :
    e.getPhysicalAddress va &&& 0xFFFFF000 = e.entryValue &&& 0xFFFFF000 := by
  rw [getPhysicalAddress_eq_splice, splice_and]

/-- Translation keeps the page offset. -/
theorem offset_getPhysicalAddress (e : PageTableEntry) (va : Word) :
    e.getPhysicalAddress va &&& 0xFFF = va &&& 0xFFF := by
  rw [getPhysicalAddress_eq_splice, offsetMask_eq_not, splice_and_not]

/-- Every permission includes validity. -/
theorem isValid_of_permits {bit : Word} {e : PageTableEntry} {mode : PrivilegeMode}
    (h : permits bit e mode = true) : e.isValid = true := by
  unfold permits at h
  cases hv : e.isValid with
  | true => rfl
  | false => rw [hv] at h; contradiction

end PageTableEntry

/-- The key the MMU looks up is page-aligned. -/
theorem page_and_offset (va : Word) : va &&& 0xFFFFF000 &&& 0xFFF = 0 := by
  have hmasks : (0xFFFFF000 : Word) &&& 0xFFF = 0 := by decide
  rw [BitVec.and_assoc, hmasks]
  exact BitVec.and_zero

/-! ## the translation as a function and a guard -/

/-- The permission bit an access needs. -/
def accessBit (isWrite : Bool) : Word :=
  if isWrite then PageTableEntry.writeBit else PageTableEntry.readBit

namespace MMU

/-- Where the page table sends a virtual address, permissions aside. -/
def physical (mmu : MMU) (va : Word) : Word :=
  match mmu.pageTable.entries (va &&& 0xFFFFF000) with
  | some e => e.getPhysicalAddress va
  | none => 0

/-- Whether the page table and the mode permit the access. -/
def grants (mmu : MMU) (isWrite : Bool) (va : Word) : Bool :=
  match mmu.pageTable.entries (va &&& 0xFFFFF000) with
  | some e => PageTableEntry.permits (accessBit isWrite) e mmu.privilegeMode
  | none => false

/-- The access is permitted and its physical address exists. -/
def Reaches (mmu : MMU) (isWrite : Bool) (va : Word) : Prop :=
  mmu.grants isWrite va = true ∧ (mmu.physical va).toNat < mmu.physicalMemory.memory.length

instance (mmu : MMU) (isWrite : Bool) (va : Word) : Decidable (mmu.Reaches isWrite va) :=
  inferInstanceAs (Decidable (_ ∧ _))

theorem physical_of_some {mmu : MMU} {va : Word} {e : PageTableEntry}
    (h : mmu.pageTable.entries (va &&& 0xFFFFF000) = some e) :
    mmu.physical va = e.getPhysicalAddress va := by
  unfold physical
  rw [h]

/-- A granted access has an entry that permits it. -/
theorem grants_iff (mmu : MMU) (isWrite : Bool) (va : Word) :
    mmu.grants isWrite va = true ↔ ∃ e, mmu.pageTable.entries (va &&& 0xFFFFF000) = some e ∧
      PageTableEntry.permits (accessBit isWrite) e mmu.privilegeMode = true ∧
      mmu.physical va = e.getPhysicalAddress va := by
  unfold grants physical
  cases mmu.pageTable.entries (va &&& 0xFFFFF000) with
  | none => simp
  | some e => simp

/-- `getEntry` masks the page number it is asked for once more. -/
theorem getEntry_page (table : PageTable) (va : Word) :
    table.getEntry (va &&& 0xFFFFF000) = table.getEntry va := by
  rw [PageTable.getEntry, PageTable.getEntry, and_and_self]

theorem getEntry_of_some {table : PageTable} {va : Word} {e : PageTableEntry}
    (h : table.entries (va &&& 0xFFFFF000) = some e) : table.getEntry va = .ok e := by
  rw [PageTable.getEntry, h]

theorem getEntry_of_none {table : PageTable} {va : Word}
    (h : table.entries (va &&& 0xFFFFF000) = none) :
    table.getEntry va = .error
      (.pageFaultException "PageTable::get_entry - No entry for virtual address") := by
  rw [PageTable.getEntry, h]

theorem translateAddress_of_grants {mmu : MMU} {isWrite : Bool} {va : Word}
    (h : mmu.grants isWrite va = true) :
    mmu.translateAddress va isWrite = .ok (mmu.physical va) := by
  obtain ⟨e, hentry, hperm, hphys⟩ := (grants_iff mmu isWrite va).mp h
  have hvalid := PageTableEntry.isValid_of_permits hperm
  rw [translateAddress, hphys]
  simp only [getEntry_page, getEntry_of_some hentry, bind, Except.bind, hvalid]
  cases isWrite with
  | true =>
      have hw : e.isWritable mmu.privilegeMode = true := hperm
      simp [hw]
  | false =>
      have hr : e.isReadable mmu.privilegeMode = true := hperm
      simp [hr]

theorem translateAddress_of_not_grants {mmu : MMU} {isWrite : Bool} {va : Word}
    (h : mmu.grants isWrite va = false) :
    ∃ e : Exception, e.MemoryFault ∧ mmu.translateAddress va isWrite = .error e := by
  unfold grants at h
  rw [translateAddress]
  cases hentry : mmu.pageTable.entries (va &&& 0xFFFFF000) with
  | none =>
      refine ⟨.pageFaultException "PageTable::get_entry - No entry for virtual address",
        trivial, ?_⟩
      simp only [getEntry_page, getEntry_of_none hentry, bind, Except.bind]
  | some e =>
      simp only [hentry] at h
      simp only [getEntry_page, getEntry_of_some hentry, bind, Except.bind]
      cases hvalid : e.isValid with
      | false => exact ⟨.pageFaultException _, trivial, rfl⟩
      | true =>
          cases isWrite with
          | true =>
              have hw : e.isWritable mmu.privilegeMode = false := h
              exact ⟨.accessViolationException _, trivial, by simp only [hw]; rfl⟩
          | false =>
              have hr : e.isReadable mmu.privilegeMode = false := h
              exact ⟨.accessViolationException _, trivial, by simp only [hr]; rfl⟩

/-- A translation that succeeds is granted and goes to the physical address. -/
theorem translateAddress_eq_ok_iff (mmu : MMU) (isWrite : Bool) (va pa : Word) :
    mmu.translateAddress va isWrite = .ok pa ↔
      mmu.grants isWrite va = true ∧ mmu.physical va = pa := by
  cases hg : mmu.grants isWrite va with
  | true =>
      rw [translateAddress_of_grants hg]
      simp
  | false =>
      obtain ⟨e, -, he⟩ := translateAddress_of_not_grants hg
      rw [he]
      simp

/-- An access reaches memory when the code translates its address to one in
range. -/
theorem reaches_iff (mmu : MMU) (isWrite : Bool) (va : Word) :
    mmu.Reaches isWrite va ↔ ∃ pa, mmu.translateAddress va isWrite = .ok pa ∧
      pa.toNat < mmu.physicalMemory.size := by
  simp [translateAddress_eq_ok_iff, Reaches, PhysicalMemory.size]

/-! ## byte accesses -/

/-- A read returns the byte at the physical address, if it reaches one. -/
theorem read_eq_ok_iff (mmu : MMU) (va : Word) (b : Byte) :
    mmu.read va = .ok b ↔ mmu.grants false va = true ∧
      mmu.physicalMemory.memory[(mmu.physical va).toNat]? = some b := by
  unfold read
  cases hg : mmu.grants false va with
  | true =>
      rw [translateAddress_of_grants hg]
      simp only [bind, Except.bind, PhysicalMemory.read]
      split
      · next hlt => simp [List.getElem?_eq_getElem hlt]
      · next hge => simp [List.getElem?_eq_none (Nat.not_lt.mp hge)]
  | false =>
      obtain ⟨e, -, he⟩ := translateAddress_of_not_grants hg
      rw [he]
      simp [bind, Except.bind]

/-- A read succeeds exactly when it reaches memory. -/
theorem read_ok_iff_reaches (mmu : MMU) (va : Word) :
    (∃ b, mmu.read va = .ok b) ↔ mmu.Reaches false va := by
  simp only [read_eq_ok_iff, exists_and_left, Reaches, List.getElem?_eq_some_iff]
  simp

/-- A read that does not reach memory throws a memory fault. -/
theorem read_of_not_reaches {mmu : MMU} {va : Word} (h : ¬ mmu.Reaches false va) :
    ∃ e : Exception, e.MemoryFault ∧ mmu.read va = .error e := by
  unfold read
  cases hg : mmu.grants false va with
  | true =>
      have hge : ¬ (mmu.physical va).toNat < mmu.physicalMemory.memory.length :=
        fun hlt => h ⟨hg, hlt⟩
      refine ⟨.outOfRange "PhysicalMemory::read - Address out of range", .inl rfl, ?_⟩
      rw [translateAddress_of_grants hg]
      simp only [bind, Except.bind, PhysicalMemory.read, dif_neg hge]
  | false =>
      obtain ⟨e, hfault, he⟩ := translateAddress_of_not_grants hg
      refine ⟨e, hfault, ?_⟩
      rw [he]; rfl

/-- The MMU with one physical byte replaced. -/
def store (mmu : MMU) (pa : Word) (b : Byte) : MMU :=
  { mmu with physicalMemory := ⟨mmu.physicalMemory.memory.set pa.toNat b⟩ }

@[simp] theorem store_pageTable (mmu : MMU) (pa : Word) (b : Byte) :
    (mmu.store pa b).pageTable = mmu.pageTable := rfl

@[simp] theorem store_privilegeMode (mmu : MMU) (pa : Word) (b : Byte) :
    (mmu.store pa b).privilegeMode = mmu.privilegeMode := rfl

@[simp] theorem store_memory (mmu : MMU) (pa : Word) (b : Byte) :
    (mmu.store pa b).physicalMemory.memory = mmu.physicalMemory.memory.set pa.toNat b := rfl

/-- Storing changes neither where accesses go nor whether they reach. -/
@[simp] theorem store_physical (mmu : MMU) (pa : Word) (b : Byte) (va : Word) :
    (mmu.store pa b).physical va = mmu.physical va := rfl

@[simp] theorem store_reaches (mmu : MMU) (pa : Word) (b : Byte) (isWrite : Bool) (va : Word) :
    (mmu.store pa b).Reaches isWrite va ↔ mmu.Reaches isWrite va := by
  unfold Reaches
  rw [store_memory, List.length_set]
  rfl

/-- A write that reaches memory stores the byte. -/
theorem run_write_of_reaches {mmu : MMU} {va : Word} (b : Byte) (h : mmu.Reaches true va) :
    (write va b).run mmu = .ok () (mmu.store (mmu.physical va) b) := by
  unfold write
  have hw : mmu.physicalMemory.write (mmu.physical va) b =
      .ok ⟨mmu.physicalMemory.memory.set (mmu.physical va).toNat b⟩ := by
    rw [PhysicalMemory.write, if_pos h.2]
  simp only [EStateM.run_bind, run_tries, translateAddress_of_grants h.1, hw, EStateM.run_modify]
  rfl

/-- A write that does not reach memory throws a memory fault and changes
nothing. -/
theorem run_write_of_not_reaches {mmu : MMU} {va : Word} (b : Byte)
    (h : ¬ mmu.Reaches true va) :
    ∃ e : Exception, e.MemoryFault ∧ (write va b).run mmu = .error e mmu := by
  unfold write
  cases hg : mmu.grants true va with
  | true =>
      have hge : ¬ (mmu.physical va).toNat < mmu.physicalMemory.memory.length :=
        fun hlt => h ⟨hg, hlt⟩
      refine ⟨.outOfRange "PhysicalMemory::write - Address out of range", .inr rfl, ?_⟩
      simp only [EStateM.run_bind, run_tries, translateAddress_of_grants hg,
        PhysicalMemory.write, if_neg hge]
  | false =>
      obtain ⟨e, hfault, he⟩ := translateAddress_of_not_grants hg
      exact ⟨e, hfault, run_bind_error (run_tries_error he)⟩

/-! ## word reads -/

/-- Four byte reads make a word read. -/
theorem readWord_of_read {mmu : MMU} {va : Word} {b0 b1 b2 b3 : Byte}
    (h0 : mmu.read va = .ok b0) (h1 : mmu.read (va + 1) = .ok b1)
    (h2 : mmu.read (va + 2) = .ok b2) (h3 : mmu.read (va + 3) = .ok b3) :
    mmu.readWord va = .ok (leWord b0 b1 b2 b3) := by
  rw [readWord, h0, h1, h2, h3]
  exact congrArg Except.ok (shift_or_eq_leWord b0 b1 b2 b3)

/-- The word whose bytes are read at the four addresses is the word read. -/
theorem readWord_of_bytes {mmu : MMU} {va w : Word}
    (h : ∀ k < 4, mmu.read (va + BitVec.ofNat 32 k) = .ok (leByte w k)) :
    mmu.readWord va = .ok w := by
  have h0 : mmu.read va = .ok (leByte w 0) := by simpa using h 0 (by decide)
  rw [readWord_of_read h0 (h 1 (by decide)) (h 2 (by decide)) (h 3 (by decide)),
    leWord_leByte]

/-- A read either returns a byte or does not reach memory. -/
theorem read_cases (mmu : MMU) (va : Word) :
    (∃ b, mmu.read va = .ok b) ∨
      ¬ mmu.Reaches false va ∧ ∃ e : Exception, e.MemoryFault ∧ mmu.read va = .error e := by
  by_cases h : mmu.Reaches false va
  · exact .inl ((read_ok_iff_reaches mmu va).mpr h)
  · exact .inr ⟨h, read_of_not_reaches h⟩

/-- A word read returns the word of its four bytes, or throws a memory fault
because one of them does not reach memory. -/
theorem readWord_cases (mmu : MMU) (va : Word) :
    (∃ w, mmu.readWord va = .ok w ∧
      ∀ k < 4, mmu.read (va + BitVec.ofNat 32 k) = .ok (leByte w k)) ∨
    (∃ e : Exception, e.MemoryFault ∧ mmu.readWord va = .error e ∧
      ∃ k < 4, ¬ mmu.Reaches false (va + BitVec.ofNat 32 k)) := by
  rcases read_cases mmu va with ⟨b0, h0⟩ | ⟨hn, e, hf, he⟩
  case inr => exact .inr ⟨e, hf, by rw [readWord, he]; rfl, 0, by decide, by simpa using hn⟩
  rcases read_cases mmu (va + 1) with ⟨b1, h1⟩ | ⟨hn, e, hf, he⟩
  case inr => exact .inr ⟨e, hf, by rw [readWord, h0, he]; rfl, 1, by decide, hn⟩
  rcases read_cases mmu (va + 2) with ⟨b2, h2⟩ | ⟨hn, e, hf, he⟩
  case inr => exact .inr ⟨e, hf, by rw [readWord, h0, h1, he]; rfl, 2, by decide, hn⟩
  rcases read_cases mmu (va + 3) with ⟨b3, h3⟩ | ⟨hn, e, hf, he⟩
  case inr => exact .inr ⟨e, hf, by rw [readWord, h0, h1, h2, he]; rfl, 3, by decide, hn⟩
  obtain ⟨hb0, hb1, hb2, hb3⟩ := leByte_leWord b0 b1 b2 b3
  refine .inl ⟨leWord b0 b1 b2 b3, readWord_of_read h0 h1 h2 h3, fun k hk => ?_⟩
  match k, hk with
  | 0, _ => rw [hb0]; simpa using h0
  | 1, _ => rw [hb1]; exact h1
  | 2, _ => rw [hb2]; exact h2
  | 3, _ => rw [hb3]; exact h3

/-- The bytes of a word that was read. -/
theorem read_of_readWord {mmu : MMU} {va w : Word} (h : mmu.readWord va = .ok w) :
    ∀ k < 4, mmu.read (va + BitVec.ofNat 32 k) = .ok (leByte w k) := by
  rcases readWord_cases mmu va with ⟨w', hw', hbytes⟩ | ⟨e, -, he, -⟩
  · rw [h] at hw'
    obtain rfl : w = w' := Except.ok.inj hw'
    exact hbytes
  · rw [h] at he; contradiction

/-- A word read succeeds exactly when its four bytes reach memory. -/
theorem readWord_ok_iff_reaches (mmu : MMU) (va : Word) :
    (∃ w, mmu.readWord va = .ok w) ↔
      ∀ k < 4, mmu.Reaches false (va + BitVec.ofNat 32 k) := by
  constructor
  · rintro ⟨w, hw⟩ k hk
    exact (read_ok_iff_reaches _ _).mp ⟨_, read_of_readWord hw k hk⟩
  · intro h
    rcases readWord_cases mmu va with ⟨w, hw, -⟩ | ⟨e, -, -, k, hk, hn⟩
    · exact ⟨w, hw⟩
    · exact absurd (h k hk) hn

/-! ## word writes -/

/-- The writes of the first `n` bytes of a word. -/
def writeBytes (va w : Word) : Nat → EStateM Exception MMU Unit
  | 0 => pure ()
  | n + 1 => do
    writeBytes va w n
    write (va + BitVec.ofNat 32 n) (leByte w n)

/-- The MMU with the first `n` bytes of a word stored. -/
def storeBytes (mmu : MMU) (va w : Word) : Nat → MMU
  | 0 => mmu
  | n + 1 => (mmu.storeBytes va w n).store (mmu.physical (va + BitVec.ofNat 32 n)) (leByte w n)

/-- Shifting a byte down and cutting it out is taking the byte. -/
theorem shift_and_setWidth (w : Word) (k : Nat) :
    ((w >>> (8 * k)) &&& 0xFF).setWidth 8 = leByte w k := by
  rw [leByte]
  ext i hi
  have hmask : ∀ j < 8, (0xFF : Word).getLsbD j = true := by decide
  simp only [BitVec.getElem_setWidth, BitVec.getLsbD_and, hmask i hi, Bool.and_true,
    BitVec.getLsbD_ushiftRight, BitVec.getElem_extractLsb']

/-- A word write is the writes of its four bytes in order. -/
theorem writeWord_eq_writes (va w : Word) : writeWord va w = (do
    write va (leByte w 0)
    write (va + 1) (leByte w 1)
    write (va + 2) (leByte w 2)
    write (va + 3) (leByte w 3)) := by
  have h0 : (w &&& 0xFF).setWidth 8 = leByte w 0 := shift_and_setWidth w 0
  have h1 : ((w >>> 8) &&& 0xFF).setWidth 8 = leByte w 1 := shift_and_setWidth w 1
  have h2 : ((w >>> 16) &&& 0xFF).setWidth 8 = leByte w 2 := shift_and_setWidth w 2
  have h3 : ((w >>> 24) &&& 0xFF).setWidth 8 = leByte w 3 := shift_and_setWidth w 3
  rw [writeWord, h0, h1, h2, h3]

theorem writeWord_eq (va w : Word) : writeWord va w = writeBytes va w 4 := by
  rw [writeWord_eq_writes]
  simp [writeBytes]

section StoreBytes

variable (mmu : MMU) (va w : Word) (n : Nat)

@[simp] theorem storeBytes_pageTable : (mmu.storeBytes va w n).pageTable = mmu.pageTable := by
  induction n with
  | zero => rfl
  | succ n ih => rw [storeBytes, store_pageTable, ih]

@[simp] theorem storeBytes_privilegeMode :
    (mmu.storeBytes va w n).privilegeMode = mmu.privilegeMode := by
  induction n with
  | zero => rfl
  | succ n ih => rw [storeBytes, store_privilegeMode, ih]

@[simp] theorem storeBytes_physical (a : Word) :
    (mmu.storeBytes va w n).physical a = mmu.physical a := by
  unfold physical; rw [storeBytes_pageTable]

@[simp] theorem storeBytes_reaches (isWrite : Bool) (a : Word) :
    (mmu.storeBytes va w n).Reaches isWrite a ↔ mmu.Reaches isWrite a := by
  induction n with
  | zero => rfl
  | succ n ih => rw [storeBytes, store_reaches, ih]

end StoreBytes

/-- A run of writes that all reach memory stores the bytes. -/
theorem run_writeBytes_of_reaches {mmu : MMU} {va : Word} (w : Word) {n : Nat}
    (h : ∀ i < n, mmu.Reaches true (va + BitVec.ofNat 32 i)) :
    (writeBytes va w n).run mmu = .ok () (mmu.storeBytes va w n) := by
  induction n with
  | zero => rfl
  | succ n ih =>
      have hn := (storeBytes_reaches mmu va w n true _).mpr (h n (Nat.lt_succ_self n))
      rw [writeBytes, run_bind_ok (ih fun i hi => h i (Nat.lt_succ_of_lt hi)),
        run_write_of_reaches _ hn, storeBytes_physical]
      rfl

/-- A run of writes stops at the first one that does not reach memory. -/
theorem run_writeBytes_of_not_reaches {mmu : MMU} {va : Word} (w : Word) {n k : Nat} (hk : k < n)
    (hbelow : ∀ i < k, mmu.Reaches true (va + BitVec.ofNat 32 i))
    (hstop : ¬ mmu.Reaches true (va + BitVec.ofNat 32 k)) :
    ∃ e : Exception, e.MemoryFault ∧
      (writeBytes va w n).run mmu = .error e (mmu.storeBytes va w k) := by
  induction n with
  | zero => omega
  | succ n ih =>
      by_cases hkn : k < n
      · obtain ⟨e, hf, he⟩ := ih hkn
        exact ⟨e, hf, run_bind_error he⟩
      · obtain rfl : k = n := by omega
        have hn : ¬ (mmu.storeBytes va w k).Reaches true (va + BitVec.ofNat 32 k) := by
          rwa [storeBytes_reaches]
        obtain ⟨e, hf, he⟩ := run_write_of_not_reaches (leByte w k) hn
        refine ⟨e, hf, ?_⟩
        rw [writeBytes, run_bind_ok (run_writeBytes_of_reaches w hbelow), he]

/-- A word write stores all four bytes, or stops with a memory fault at the
first byte that does not reach memory, the ones before it stored. -/
theorem run_writeWord_cases (mmu : MMU) (va w : Word) :
    (∀ i < 4, mmu.Reaches true (va + BitVec.ofNat 32 i)) ∧
      (writeWord va w).run mmu = .ok () (mmu.storeBytes va w 4) ∨
    ∃ k < 4, (∀ i < k, mmu.Reaches true (va + BitVec.ofNat 32 i)) ∧
      ¬ mmu.Reaches true (va + BitVec.ofNat 32 k) ∧
      ∃ e : Exception, e.MemoryFault ∧
        (writeWord va w).run mmu = .error e (mmu.storeBytes va w k) := by
  rw [writeWord_eq]
  by_cases hall : ∀ i < 4, mmu.Reaches true (va + BitVec.ofNat 32 i)
  · exact .inl ⟨hall, run_writeBytes_of_reaches w hall⟩
  · have hex : ∃ k, k < 4 ∧ ¬ mmu.Reaches true (va + BitVec.ofNat 32 k) := by
      simpa using hall
    obtain ⟨hk, hstop⟩ := Nat.find_spec hex
    have hbelow : ∀ i < Nat.find hex, mmu.Reaches true (va + BitVec.ofNat 32 i) := by
      intro i hi
      by_contra hn
      exact Nat.find_min hex hi ⟨hi.trans hk, hn⟩
    exact .inr ⟨_, hk, hbelow, hstop, run_writeBytes_of_not_reaches w hk hbelow hstop⟩

/-- All a word write can throw is a memory fault. -/
theorem memoryFault_of_writeWord {mmu : MMU} {va w : Word} {e : Exception}
    (h : outcome ((writeWord va w).run mmu) = .error e) : e.MemoryFault := by
  rcases run_writeWord_cases mmu va w with ⟨-, hrun⟩ | ⟨k, -, -, -, e', hfault, hrun⟩
  · rw [hrun] at h
    contradiction
  · rw [hrun] at h
    obtain rfl := Except.error.inj h
    exact hfault

/-! ## what a word write stores -/

/-- A granted access keeps the page offset. -/
theorem offset_physical {mmu : MMU} {isWrite : Bool} {va : Word}
    (h : mmu.grants isWrite va = true) : mmu.physical va &&& 0xFFF = va &&& 0xFFF := by
  obtain ⟨e, -, -, hphys⟩ := (grants_iff mmu isWrite va).mp h
  rw [hphys, PageTableEntry.offset_getPhysicalAddress]

/-- Two bytes of one word never share a physical address, whatever the page
table. -/
theorem physical_ne_of_ne {mmu : MMU} {isWrite : Bool} {va : Word} {i j : Nat} (hi : i < 4)
    (hj : j < 4) (hij : i ≠ j) (hgi : mmu.grants isWrite (va + BitVec.ofNat 32 i) = true)
    (hgj : mmu.grants isWrite (va + BitVec.ofNat 32 j) = true) :
    mmu.physical (va + BitVec.ofNat 32 i) ≠ mmu.physical (va + BitVec.ofNat 32 j) := by
  intro h
  have hoff := congrArg (· &&& 0xFFF) h
  simp only [offset_physical hgi, offset_physical hgj] at hoff
  exact low_ne_of_ne (k := 12) (by decide) (by omega) (by omega) hij va hoff

/-- The bytes a word write stores are those of the word. -/
theorem storeBytes_getElem?_physical {mmu : MMU} {va : Word} (w : Word) {n i : Nat} (hn : n ≤ 4)
    (h : ∀ i < n, mmu.Reaches true (va + BitVec.ofNat 32 i)) (hi : i < n) :
    (mmu.storeBytes va w n).physicalMemory.memory[
      (mmu.physical (va + BitVec.ofNat 32 i)).toNat]? = some (leByte w i) := by
  induction n with
  | zero => omega
  | succ n ih =>
      have hlen : (mmu.physical (va + BitVec.ofNat 32 i)).toNat <
          (mmu.storeBytes va w n).physicalMemory.memory.length :=
        (storeBytes_physical mmu va w n _ ▸
          ((storeBytes_reaches mmu va w n true _).mpr (h i hi)).2)
      rw [storeBytes, store_memory]
      by_cases hin : i = n
      · subst hin
        rw [List.getElem?_set_self hlen]
      · have hne := physical_ne_of_ne (by omega) (by omega) (Ne.symm hin)
          (h n (Nat.lt_succ_self n)).1 (h i hi).1
        rw [List.getElem?_set_ne fun heq => hne (BitVec.eq_of_toNat_eq heq)]
        exact ih (by omega) (fun j hj => h j (Nat.lt_succ_of_lt hj)) (by omega)

/-- A word write changes no byte but those it stores. -/
theorem storeBytes_getElem?_of_ne {mmu : MMU} {va : Word} (w : Word) {n a : Nat}
    (h : ∀ i < n, (mmu.physical (va + BitVec.ofNat 32 i)).toNat ≠ a) :
    (mmu.storeBytes va w n).physicalMemory.memory[a]? = mmu.physicalMemory.memory[a]? := by
  induction n with
  | zero => rfl
  | succ n ih =>
      rw [storeBytes, store_memory, List.getElem?_set_ne (h n (Nat.lt_succ_self n))]
      exact ih fun i hi => h i (Nat.lt_succ_of_lt hi)

/-- A word write leaves memory as it was exactly when memory already held the
bytes it stores. -/
theorem storeBytes_memory_eq_iff {mmu : MMU} {va : Word} (w : Word) {n : Nat} (hn : n ≤ 4)
    (h : ∀ i < n, mmu.Reaches true (va + BitVec.ofNat 32 i)) :
    (mmu.storeBytes va w n).physicalMemory = mmu.physicalMemory ↔
      ∀ i < n, mmu.physicalMemory.memory[(mmu.physical (va + BitVec.ofNat 32 i)).toNat]? =
        some (leByte w i) := by
  constructor
  · intro heq i hi
    rw [← storeBytes_getElem?_physical w hn h hi, heq]
  · intro hsame
    have hmem : (mmu.storeBytes va w n).physicalMemory.memory = mmu.physicalMemory.memory := by
      apply List.ext_getElem?
      intro a
      by_cases ha : ∀ i < n, (mmu.physical (va + BitVec.ofNat 32 i)).toNat ≠ a
      · exact storeBytes_getElem?_of_ne w ha
      · obtain ⟨i, hi, rfl⟩ : ∃ i < n, (mmu.physical (va + BitVec.ofNat 32 i)).toNat = a := by
          simpa using ha
        rw [storeBytes_getElem?_physical w hn h hi, hsame i hi]
    exact congrArg PhysicalMemory.mk hmem

end MMU

end VirtuV
