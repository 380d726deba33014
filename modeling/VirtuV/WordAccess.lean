import VirtuV.Translation

/-!
# VirtuV.WordAccess

Word writes and reads under arbitrary mappings.

A word is written byte by byte, each byte translated on its own, so its halves
may go through two entries, and these may map the same frame.  `BytesStored`
says what the first `n` bytes leave behind; a write that succeeds leaves all
four, one that faults those before the byte that faulted.
-/

namespace VirtuV

open Stateful
open Bits

namespace MMU

/-! ## what a word access asks for -/

/-- Each of the four bytes translates for writing to an address in range. -/
def WordWritable (mmu : MMU) (va : Word) : Prop :=
  ∀ k < 4, ∃ pa, mmu.translateAddress (va + BitVec.ofNat 32 k) true = .ok pa ∧
    pa.toNat < mmu.physicalMemory.size

/-- Each of the four bytes can be read. -/
def WordReadable (mmu : MMU) (va : Word) : Prop :=
  ∀ k < 4, ∃ b, mmu.read (va + BitVec.ofNat 32 k) = .ok b

theorem wordWritable_iff (mmu : MMU) (va : Word) :
    mmu.WordWritable va ↔ ∀ k < 4, mmu.Reaches true (va + BitVec.ofNat 32 k) := by
  simp only [WordWritable, reaches_iff]

theorem wordReadable_iff (mmu : MMU) (va : Word) :
    mmu.WordReadable va ↔ ∀ k < 4, mmu.Reaches false (va + BitVec.ofNat 32 k) := by
  simp only [WordReadable, read_ok_iff_reaches]

/-- A word read returns a word, or throws because a byte cannot be read. -/
theorem readWord_cases_readable (mmu : MMU) (va : Word) :
    (∃ w, mmu.readWord va = .ok w ∧ mmu.WordReadable va) ∨
      (∃ e, mmu.readWord va = .error e ∧ ¬ mmu.WordReadable va) := by
  rw [wordReadable_iff, ← readWord_ok_iff_reaches]
  cases mmu.readWord va with
  | ok w => exact .inl ⟨w, rfl, w, rfl⟩
  | error e => exact .inr ⟨e, rfl, by rintro ⟨w, hw⟩; contradiction⟩

/-! ## what it leaves behind -/

/-- From `mmu` to `mmu'` the first `n` bytes of the word `w` have been stored
at the translations of their addresses, and nothing else has changed. -/
structure BytesStored (mmu mmu' : MMU) (va w : Word) (n : Nat) : Prop where
  pageTable : mmu'.pageTable = mmu.pageTable
  privilegeMode : mmu'.privilegeMode = mmu.privilegeMode
  stored : ∀ k < n, ∃ pa, mmu.translateAddress (va + BitVec.ofNat 32 k) true = .ok pa ∧
    mmu'.physicalMemory.memory[pa.toNat]? = some (leByte w k)
  frame : ∀ a, (∀ k < n, ∀ pa, mmu.translateAddress (va + BitVec.ofNat 32 k) true = .ok pa →
    pa.toNat ≠ a) → mmu'.physicalMemory.memory[a]? = mmu.physicalMemory.memory[a]?

theorem bytesStored_storeBytes {mmu : MMU} {va : Word} (w : Word) {n : Nat} (hn : n ≤ 4)
    (h : ∀ i < n, mmu.Reaches true (va + BitVec.ofNat 32 i)) :
    mmu.BytesStored (mmu.storeBytes va w n) va w n where
  pageTable := storeBytes_pageTable mmu va w n
  privilegeMode := storeBytes_privilegeMode mmu va w n
  stored k hk := ⟨_, translateAddress_of_grants (h k hk).1, storeBytes_getElem?_physical w hn h hk⟩
  frame _ ha := storeBytes_getElem?_of_ne w fun i hi =>
    ha i hi _ (translateAddress_of_grants (h i hi).1)

/-- **A word write**: it stores all four bytes, or throws a memory fault at the
first byte that does not reach memory, having stored those before it. -/
theorem writeWord_cases (mmu : MMU) (va w : Word) :
    (mmu.WordWritable va ∧ ∃ mmu', (writeWord va w).run mmu = .ok () mmu' ∧
      mmu.BytesStored mmu' va w 4) ∨
    (∃ k < 4, (∀ i < k, mmu.Reaches true (va + BitVec.ofNat 32 i)) ∧
      ¬ mmu.Reaches true (va + BitVec.ofNat 32 k) ∧
      ∃ (e : Exception) (mmu' : MMU), e.MemoryFault ∧ (writeWord va w).run mmu = .error e mmu' ∧
        mmu.BytesStored mmu' va w k) := by
  rcases run_writeWord_cases mmu va w with ⟨hall, hrun⟩ | ⟨k, hk, hbelow, hstop, e, hfault, hrun⟩
  · exact .inl ⟨(wordWritable_iff mmu va).mpr hall, _, hrun,
      bytesStored_storeBytes w (Nat.le_refl 4) hall⟩
  · exact .inr ⟨k, hk, hbelow, hstop, e, _, hfault, hrun,
      bytesStored_storeBytes w (Nat.le_of_lt hk) hbelow⟩

/-- A word write succeeds exactly when each byte can be written. -/
theorem writeWord_ok_iff (mmu : MMU) (va w : Word) :
    (∃ mmu', (writeWord va w).run mmu = .ok () mmu') ↔ mmu.WordWritable va := by
  rcases writeWord_cases mmu va w with ⟨hall, mmu', hrun, -⟩ | ⟨k, hk, -, hstop, e, mmu', -, hrun, -⟩
  · exact ⟨fun _ => hall, fun _ => ⟨mmu', hrun⟩⟩
  · constructor
    · rintro ⟨_, hok⟩
      rw [hrun] at hok
      contradiction
    · exact fun hall => absurd ((wordWritable_iff mmu va).mp hall k hk) hstop

/-- A word write throws exactly where not all four bytes can be written. -/
theorem writeWord_error_iff (mmu : MMU) (va w : Word) :
    (∃ e, outcome ((writeWord va w).run mmu) = .error e) ↔ ¬ mmu.WordWritable va := by
  rw [← writeWord_ok_iff mmu va w]
  cases (writeWord va w).run mmu with
  | ok a mmu' => simp
  | error e mmu' => simp

/-- A word write that succeeds stores all four bytes. -/
theorem bytesStored_of_writeWord {mmu mmu' : MMU} {va w : Word}
    (h : (writeWord va w).run mmu = .ok () mmu') : mmu.BytesStored mmu' va w 4 := by
  rcases writeWord_cases mmu va w with ⟨-, _, hrun, hstored⟩ | ⟨k, -, -, -, e, _, -, hrun, -⟩
  · rw [hrun] at h
    obtain ⟨-, rfl⟩ := EStateM.Result.ok.inj h
    exact hstored
  · rw [hrun] at h
    contradiction

/-- A word stored can be read back, where it can be read at all. -/
theorem BytesStored.readWord {mmu mmu' : MMU} {va w : Word} (h : mmu.BytesStored mmu' va w 4)
    (hread : mmu.WordReadable va) : mmu'.readWord va = .ok w := by
  apply readWord_of_bytes
  intro k hk
  obtain ⟨pa, hpa, hbyte⟩ := h.stored k hk
  obtain ⟨-, rfl⟩ := (translateAddress_eq_ok_iff mmu true _ pa).mp hpa
  have hgrants := ((wordReadable_iff mmu va).mp hread k hk).1
  have hphys : mmu'.physical = mmu.physical := by
    funext va'
    unfold physical
    rw [h.pageTable]
  rw [read_eq_ok_iff, hphys]
  refine ⟨?_, hbyte⟩
  unfold grants at hgrants ⊢
  rw [h.pageTable, h.privilegeMode, hgrants]

/-- The bytes of one word translate to distinct addresses, whatever the page
table. -/
theorem translateAddress_ne {mmu : MMU} {va : Word} {i j : Nat} (hi : i < 4) (hj : j < 4)
    (hij : i ≠ j) {pa pa' : Word}
    (h : mmu.translateAddress (va + BitVec.ofNat 32 i) true = .ok pa)
    (h' : mmu.translateAddress (va + BitVec.ofNat 32 j) true = .ok pa') : pa ≠ pa' := by
  obtain ⟨hg, rfl⟩ := (translateAddress_eq_ok_iff mmu true _ pa).mp h
  obtain ⟨hg', rfl⟩ := (translateAddress_eq_ok_iff mmu true _ pa').mp h'
  exact physical_ne_of_ne hi hj hij hg hg'

/-- Writing back the word just read changes nothing, even where the write
faults midway. -/
theorem final_writeWord_readWord {mmu : MMU} {va w : Word} (h : mmu.readWord va = .ok w) :
    final ((writeWord va w).run mmu) = mmu := by
  have hsame : ∀ n ≤ 4, (∀ i < n, mmu.Reaches true (va + BitVec.ofNat 32 i)) →
      mmu.storeBytes va w n = mmu := by
    intro n hn hreach
    apply MMU.ext
    · rw [storeBytes_memory_eq_iff w hn hreach]
      intro i hi
      have hread := read_of_readWord h i (by omega)
      exact ((read_eq_ok_iff mmu _ _).mp hread).2
    · exact storeBytes_pageTable mmu va w n
    · exact storeBytes_privilegeMode mmu va w n
  rcases run_writeWord_cases mmu va w with ⟨hall, hrun⟩ | ⟨k, hk, hbelow, -, e, -, hrun⟩
  · rw [hrun, final_ok, hsame 4 (Nat.le_refl 4) hall]
  · rw [hrun, final_error, hsame k (Nat.le_of_lt hk) hbelow]

end MMU

/-- **Word round trip**: a word write succeeds exactly when each of its bytes
translates for writing to an address in range; then the four translations are
distinct, they hold the bytes of the word, nothing else has changed, and the
word is read back where it can be read.  Writing back a word just read changes
nothing. -/
theorem writeWord_roundTrip (mmu : MMU) (va : Word) :
    (∀ w, (∃ mmu', (MMU.writeWord va w).run mmu = .ok () mmu') ↔ mmu.WordWritable va) ∧
    (∀ i j pa pa', i < 4 → j < 4 → i ≠ j →
      mmu.translateAddress (va + BitVec.ofNat 32 i) true = .ok pa →
      mmu.translateAddress (va + BitVec.ofNat 32 j) true = .ok pa' → pa ≠ pa') ∧
    (∀ w mmu', (MMU.writeWord va w).run mmu = .ok () mmu' →
      mmu.BytesStored mmu' va w 4 ∧ (mmu.WordReadable va → mmu'.readWord va = .ok w)) ∧
    (∀ w, mmu.readWord va = .ok w → final ((MMU.writeWord va w).run mmu) = mmu) := by
  refine ⟨mmu.writeWord_ok_iff va, ?_, fun w mmu' hrun => ?_,
    fun w hread => MMU.final_writeWord_readWord hread⟩
  · exact fun i j pa pa' hi hj hij h h' => MMU.translateAddress_ne hi hj hij h h'
  · have hstored := MMU.bytesStored_of_writeWord hrun
    exact ⟨hstored, hstored.readWord⟩

end VirtuV
