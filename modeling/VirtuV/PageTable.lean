import VirtuV.Translation
import VirtuV.Lib.FlatMemory

/-!
# VirtuV.PageTable

The page table as a map from pages to entries.

`get_entry` looks an address up under the address of its page, but `add_entry`
stores an entry under the address as it was given.  So the entries added for an
address inside a page are never found, and the last one added for the page
counts only if it was added for the page's first address, or is the same as the
last one that was.
-/

namespace VirtuV

open FlatMemory (lastWritten lastWritten_concat lastWritten_eq_none_iff)

/-! ## sequences of calls -/

namespace PageTable

/-- The page table after calls of `add_entry`, oldest first. -/
def addEntries (calls : List (Word × PageTableEntry)) : PageTable :=
  calls.foldl (fun table call => table.addEntry call.1 call.2) .new

/-- The first address of the page of an address. -/
def page (va : Word) : Word := va &&& 0xFFFFF000

/-- The entry of the last call that named an address in the page of `va`. -/
def lastInPage (calls : List (Word × PageTableEntry)) (va : Word) : Option PageTableEntry :=
  lastWritten (calls.map fun call => (page call.1, call.2)) (page va)

/-- The entry of the last call that named the first address of that page. -/
def lastAtPage (calls : List (Word × PageTableEntry)) (va : Word) : Option PageTableEntry :=
  lastWritten calls (page va)

variable (calls : List (Word × PageTableEntry)) (va : Word)

/-- The table keeps for every key the entry last added under exactly this key. -/
theorem entries_addEntries (key : Word) :
    (addEntries calls).entries key = lastWritten calls key := by
  induction calls using List.reverseRecOn with
  | nil => rfl
  | append_singleton calls call ih =>
      have hstep : (addEntries (calls ++ [call])).entries key =
          if key = call.1 then some call.2 else (addEntries calls).entries key := by
        rw [addEntries, List.foldl_append]
        rfl
      rw [hstep, lastWritten_concat, ih]
      by_cases h : key = call.1
      · rw [if_pos h, if_pos h.symm]
      · rw [if_neg h, if_neg (Ne.symm h)]

/-- So a lookup finds the entry last added for the first address of the page. -/
theorem getEntry_addEntries : (addEntries calls).getEntry va =
    match lastAtPage calls va with
    | some e => .ok e
    | none =>
      .error (.pageFaultException "PageTable::get_entry - No entry for virtual address") := by
  rw [getEntry, entries_addEntries]
  rfl

/-- A page has a last call unless no call named one of its addresses. -/
theorem lastInPage_eq_none_iff :
    lastInPage calls va = none ↔ ∀ call ∈ calls, page call.1 ≠ page va := by
  rw [lastInPage, lastWritten_eq_none_iff, List.forall_mem_map]

/-- If no call named an address of the page, none named the first. -/
theorem lastAtPage_eq_none (h : lastInPage calls va = none) : lastAtPage calls va = none := by
  rw [lastInPage_eq_none_iff] at h
  rw [lastAtPage, lastWritten_eq_none_iff]
  intro call hcall heq
  apply h call hcall
  rw [heq, page, page, Bits.and_and_self]

end PageTable

/-- A translation depends on the page table by the entry it looks up alone. -/
theorem MMU.translateAddress_congr {table table' : PageTable} {va : Word}
    (h : table.getEntry va = table'.getEntry va) (memory : PhysicalMemory) (mode : PrivilegeMode)
    (isWrite : Bool) : translateAddress ⟨memory, table, mode⟩ va isWrite =
      translateAddress ⟨memory, table', mode⟩ va isWrite := by
  simp only [translateAddress, getEntry_page, h]

/-! ## the map law -/

namespace PageTable

/-- The law of a map from pages to entries, at one address: it has the entry
last added for any address of its page, a page fault exactly if none was, and
that entry alone governs its translation. -/
structure MapLaw (calls : List (Word × PageTableEntry)) (va : Word) : Prop where
  getEntry : ∀ e, lastInPage calls va = some e → (addEntries calls).getEntry va = .ok e
  pageFault : (∃ msg, (addEntries calls).getEntry va = .error (.pageFaultException msg)) ↔
    ∀ call ∈ calls, page call.1 ≠ page va
  governed : ∀ e, lastInPage calls va = some e → ∀ memory mode isWrite,
    MMU.translateAddress ⟨memory, addEntries calls, mode⟩ va isWrite =
      MMU.translateAddress ⟨memory, new.addEntry (page va) e, mode⟩ va isWrite

/-- No call named the page, or the last that did carries the entry of the last
that named the first address of the page. -/
def FirstAddressLast (calls : List (Word × PageTableEntry)) (va : Word) : Prop :=
  ∀ e, lastInPage calls va = some e → lastAtPage calls va = some e

variable {calls : List (Word × PageTableEntry)} {va : Word}

/-- Calls that name first addresses only are as they should be. -/
theorem firstAddressLast_of_aligned (h : ∀ call ∈ calls, page call.1 = call.1) :
    FirstAddressLast calls va := by
  have hsame : calls.map (fun call => (page call.1, call.2)) = calls := by
    conv => rhs; rw [← List.map_id calls]
    exact List.map_congr_left fun call hcall => by rw [h call hcall]; rfl
  intro e he
  rwa [lastInPage, hsame] at he

theorem getEntry_of_lastAtPage {e : PageTableEntry} (h : lastAtPage calls va = some e) :
    (addEntries calls).getEntry va = .ok e := by
  rw [getEntry_addEntries, h]

/-- A lookup faults exactly if no call named the first address of the page. -/
theorem getEntry_pageFault_iff :
    (∃ msg, (addEntries calls).getEntry va = .error (.pageFaultException msg)) ↔
      lastAtPage calls va = none := by
  rw [getEntry_addEntries]
  cases lastAtPage calls va with
  | none => simp
  | some e => simp

theorem mapLaw_of_firstAddressLast (h : FirstAddressLast calls va) : MapLaw calls va where
  getEntry e he := getEntry_of_lastAtPage (h e he)
  pageFault := by
    rw [getEntry_pageFault_iff, ← lastInPage_eq_none_iff]
    constructor
    · intro hnone
      cases hlast : lastInPage calls va with
      | none => rfl
      | some e =>
          have hat := h e hlast
          rw [hnone] at hat
          contradiction
    · exact lastAtPage_eq_none calls va
  governed e he := by
    have hone : (new.addEntry (page va) e).getEntry va = .ok e :=
      MMU.getEntry_of_some (if_pos rfl)
    exact MMU.translateAddress_congr ((getEntry_of_lastAtPage (h e he)).trans hone.symm)

/-- Entries added for first addresses only obey the law everywhere. -/
theorem mapLaw_of_aligned (h : ∀ call ∈ calls, page call.1 = call.1) : MapLaw calls va :=
  mapLaw_of_firstAddressLast (firstAddressLast_of_aligned h)

end PageTable

/-- **Page table**: the law of a map from pages to entries holds at an address
exactly if no call of `add_entry` named its page, or the last that did carries
the entry of the last that named the first address of the page. -/
theorem addEntries_mapLaw_iff (calls : List (Word × PageTableEntry)) (va : Word) :
    PageTable.MapLaw calls va ↔ PageTable.FirstAddressLast calls va := by
  constructor
  · intro h e he
    have hfound := h.getEntry e he
    rw [PageTable.getEntry_addEntries] at hfound
    cases hat : PageTable.lastAtPage calls va with
    | none => rw [hat] at hfound; contradiction
    | some e' =>
        rw [hat] at hfound
        exact congrArg some (Except.ok.inj hfound)
  · exact PageTable.mapLaw_of_firstAddressLast

/-- An entry added for the address 0x1004 is not found there, and one added
there later than one for 0x1000 does not count. -/
theorem addEntries_unaligned :
    (PageTable.addEntries [(0x1004, ⟨0x101F⟩)]).getEntry 0x1004 =
      .error (.pageFaultException "PageTable::get_entry - No entry for virtual address") ∧
    (PageTable.addEntries [(0x1000, ⟨0x101F⟩), (0x1004, ⟨0x201F⟩)]).getEntry 0x1004 =
      .ok ⟨0x101F⟩ ∧
    ¬ ∀ calls va, PageTable.MapLaw calls va := by
  have hlost : (PageTable.addEntries [(0x1004, ⟨0x101F⟩)]).getEntry 0x1004 =
      .error (.pageFaultException "PageTable::get_entry - No entry for virtual address") := rfl
  refine ⟨hlost, rfl, fun h => ?_⟩
  have hfound := (h [(0x1004, ⟨0x101F⟩)] 0x1004).getEntry ⟨0x101F⟩ rfl
  rw [hlost] at hfound
  contradiction

end VirtuV
