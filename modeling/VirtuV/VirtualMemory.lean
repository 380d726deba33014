import VirtuV.Translation
import VirtuV.Lib.FlatMemory

/-!
# VirtuV.VirtualMemory

Under an injective page table the MMU is a flat virtual memory.

* **the guard** — which accesses throw, and what, is decided by the page table,
  the mode and the size of memory, and no access changes these;
* **the representation** — the flat memory holds, at every mapped virtual
  address, the byte the address translates to; that translation is injective,
  since it keeps the page offset and distinct pages have distinct frames;
* **simulation** — so every access of the MMU is one of the flat memory.
-/

namespace VirtuV

open Stateful
open Bits

/-! ## injective page tables -/

/-- Valid entries at distinct page-aligned keys map distinct frames. -/
def PageTable.FramesDistinct (table : PageTable) : Prop :=
  ∀ key key' e e', key &&& 0xFFF = 0 → key' &&& 0xFFF = 0 →
    table.entries key = some e → table.entries key' = some e' → e.isValid → e'.isValid →
    e.entryValue &&& 0xFFFFF000 = e'.entryValue &&& 0xFFFFF000 → key = key'

namespace MMU

/-- The virtual addresses with a valid entry and a byte behind it. -/
def mapped (mmu : MMU) : Set Word :=
  {va | ∃ e, mmu.pageTable.entries (va &&& 0xFFFFF000) = some e ∧ e.isValid ∧
    (mmu.physical va).toNat < mmu.physicalMemory.memory.length}

theorem mem_mapped_of_reaches {mmu : MMU} {isWrite : Bool} {va : Word}
    (h : mmu.Reaches isWrite va) : va ∈ mmu.mapped := by
  obtain ⟨e, hentry, hperm, -⟩ := (grants_iff mmu isWrite va).mp h.1
  exact ⟨e, hentry, PageTableEntry.isValid_of_permits hperm, h.2⟩

/-- Under an injective page table no two mapped addresses translate alike. -/
theorem injOn_physical {mmu : MMU} (h : mmu.pageTable.FramesDistinct) :
    Set.InjOn mmu.physical mmu.mapped := by
  rintro va ⟨e, hentry, hvalid, -⟩ va' ⟨e', hentry', hvalid', -⟩ heq
  rw [physical_of_some hentry, physical_of_some hentry'] at heq
  have hframe := congrArg (· &&& 0xFFFFF000) heq
  simp only [PageTableEntry.frame_getPhysicalAddress] at hframe
  have hoffset := congrArg (· &&& 0xFFF) heq
  simp only [PageTableEntry.offset_getPhysicalAddress] at hoffset
  have hpage := h _ _ e e' (page_and_offset va) (page_and_offset va') hentry hentry' hvalid hvalid'
    hframe
  rw [PageTableEntry.offsetMask_eq_not] at hoffset
  exact eq_of_and_eq hpage hoffset

/-! ## the guard -/

/-- The exception an access throws, if it throws one. -/
def guard (mmu : MMU) : FlatMemory.Guard Exception Word := fun isWrite va =>
  match mmu.translateAddress va isWrite with
  | .error e => some e
  | .ok pa =>
    if pa.toNat < mmu.physicalMemory.size then none
    else if isWrite then some (.outOfRange "PhysicalMemory::write - Address out of range")
    else some (.outOfRange "PhysicalMemory::read - Address out of range")

/-- The guard looks at the page table, the mode and the size of memory alone. -/
theorem guard_eq {m m' : MMU} (htable : m.pageTable = m'.pageTable)
    (hmode : m.privilegeMode = m'.privilegeMode)
    (hsize : m.physicalMemory.size = m'.physicalMemory.size) : m.guard = m'.guard := by
  unfold guard translateAddress
  rw [htable, hmode, hsize]

/-- The guard lets through the accesses that reach memory. -/
theorem guard_eq_none_iff (mmu : MMU) (isWrite : Bool) (va : Word) :
    mmu.guard isWrite va = none ↔ mmu.Reaches isWrite va := by
  rw [reaches_iff, guard]
  cases mmu.translateAddress va isWrite with
  | error e => simp
  | ok pa =>
      by_cases hpa : pa.toNat < mmu.physicalMemory.size
      · simp [hpa]
      · cases isWrite <;> simp [hpa]

/-- The flat memory an MMU stands for: 0 where nothing is mapped. -/
def flat (mmu : MMU) : Word → Byte := fun va =>
  (mmu.physicalMemory.memory[(mmu.physical va).toNat]?).getD 0

/-- A mapped address holds the byte it translates to. -/
theorem getElem?_physical_of_mapped {mmu : MMU} {va : Word} (h : va ∈ mmu.mapped) :
    mmu.physicalMemory.memory[(mmu.physical va).toNat]? = some (mmu.flat va) := by
  obtain ⟨e, -, -, hlt⟩ := h
  rw [flat, List.getElem?_eq_getElem hlt, Option.getD_some]

/-- A read refused throws what the guard says. -/
theorem read_of_guard_some {mmu : MMU} {va : Word} {e : Exception}
    (h : mmu.guard false va = some e) : mmu.read va = .error e := by
  unfold guard at h
  unfold read
  cases ht : mmu.translateAddress va false with
  | error e' =>
      rw [ht] at h
      obtain rfl := Option.some.inj h
      rfl
  | ok pa =>
      rw [ht] at h
      by_cases hpa : pa.toNat < mmu.physicalMemory.size
      · simp [hpa] at h
      · have he : .outOfRange "PhysicalMemory::read - Address out of range" = e := by
          simpa [hpa] using h
        rw [← he]
        exact dif_neg hpa

/-- So does a write, leaving everything as it was. -/
theorem run_write_of_guard_some {mmu : MMU} {va : Word} (b : Byte) {e : Exception}
    (h : mmu.guard true va = some e) : (write va b).run mmu = .error e mmu := by
  unfold guard at h
  unfold write
  cases ht : mmu.translateAddress va true with
  | error e' =>
      rw [ht] at h
      obtain rfl := Option.some.inj h
      exact run_bind_error (run_tries_error ht)
  | ok pa =>
      rw [ht] at h
      by_cases hpa : pa.toNat < mmu.physicalMemory.size
      · simp [hpa] at h
      · have he : .outOfRange "PhysicalMemory::write - Address out of range" = e := by
          simpa [hpa] using h
        have hlen : ¬ pa.toNat < mmu.physicalMemory.memory.length := hpa
        rw [← he]
        simp only [EStateM.run_bind, run_tries, ht, PhysicalMemory.write, if_neg hlen]

end MMU

/-! ## the representation -/

/-- The flat memory `m` is kept in `mmu`, which has the page table, the mode
and the size of `origin`. -/
structure MMU.Represents (origin mmu : MMU) (m : Word → Byte) : Prop where
  pageTable : mmu.pageTable = origin.pageTable
  privilegeMode : mmu.privilegeMode = origin.privilegeMode
  size : mmu.physicalMemory.size = origin.physicalMemory.size
  bytes : FlatMemory.Represents origin.physical origin.mapped m
    fun pa => mmu.physicalMemory.memory[pa.toNat]?

namespace MMU.Represents

variable {origin mmu : MMU} {m : Word → Byte}

/-- At first an MMU keeps the flat memory it stands for. -/
theorem start (mmu : MMU) : Represents mmu mmu mmu.flat :=
  ⟨rfl, rfl, rfl, fun _ h => getElem?_physical_of_mapped h⟩

theorem guard_eq (h : Represents origin mmu m) : mmu.guard = origin.guard :=
  MMU.guard_eq h.pageTable h.privilegeMode h.size

theorem physical_eq (h : Represents origin mmu m) : mmu.physical = origin.physical := by
  funext va
  unfold physical
  rw [h.pageTable]

/-- An access let through goes to a mapped address. -/
theorem mem_mapped {isWrite : Bool} {va : Word} (hg : origin.guard isWrite va = none) :
    va ∈ origin.mapped :=
  mem_mapped_of_reaches ((guard_eq_none_iff origin isWrite va).mp hg)

/-- A read let through returns the byte of the flat memory. -/
theorem read_eq (h : Represents origin mmu m) {va : Word} (hg : origin.guard false va = none) :
    mmu.read va = .ok (m va) := by
  have hbyte := h.bytes va (mem_mapped hg)
  rw [← h.guard_eq, guard_eq_none_iff] at hg
  rw [read_eq_ok_iff, h.physical_eq]
  exact ⟨hg.1, hbyte⟩

/-- A byte stored behind a mapped address is a write of the flat memory. -/
theorem store (h : Represents origin mmu m) (hinj : origin.pageTable.FramesDistinct) {va : Word}
    (hva : va ∈ origin.mapped) (b : Byte) :
    Represents origin (mmu.store (origin.physical va) b) (Function.update m va b) where
  pageTable := h.pageTable
  privilegeMode := h.privilegeMode
  size := by
    have hsize : mmu.physicalMemory.memory.length = origin.physicalMemory.memory.length := h.size
    rw [PhysicalMemory.size, store_memory, List.length_set, hsize]
    rfl
  bytes := by
    have hupdate := FlatMemory.Represents.update h.bytes (injOn_physical hinj) hva b
    obtain ⟨-, -, -, hlt⟩ := hva
    have hlen : (origin.physical va).toNat < mmu.physicalMemory.memory.length := by
      have hsize : mmu.physicalMemory.memory.length = origin.physicalMemory.memory.length := h.size
      rwa [hsize]
    intro va' hva'
    show (mmu.physicalMemory.memory.set (origin.physical va).toNat b)[(origin.physical va').toNat]? =
      some (Function.update m va b va')
    rw [← hupdate va' hva']
    by_cases heq : origin.physical va' = origin.physical va
    · rw [heq, Function.update_self, List.getElem?_set_self hlen]
    · have hne : (origin.physical va).toNat ≠ (origin.physical va').toNat :=
        fun hn => heq (BitVec.eq_of_toNat_eq hn.symm)
      rw [Function.update_of_ne heq, List.getElem?_set_ne hne]

end MMU.Represents

/-! ## simulation -/

/-- A call of the MMU. -/
inductive Access where
  | read (va : Word)
  | write (va : Word) (value : Byte)
  | readWord (va : Word)
  | writeWord (va value : Word)
deriving DecidableEq, Repr

/-- What a call returns. -/
inductive Response where
  | byte (value : Byte)
  | word (value : Word)
  | done
deriving DecidableEq, Repr

/-- The addresses of the four bytes of a word. -/
def wordAddresses (va : Word) : List Word := [va, va + 1, va + 2, va + 3]

/-- The four bytes of a word with their addresses. -/
def wordCells (va value : Word) : List (Word × Byte) :=
  [(va, leByte value 0), (va + 1, leByte value 1), (va + 2, leByte value 2),
    (va + 3, leByte value 3)]

/-- The word of four bytes. -/
def ofBytes : List Byte → Word
  | [b0, b1, b2, b3] => leWord b0 b1 b2 b3
  | _ => 0

namespace Access

/-- The call. -/
def perform : Access → EStateM Exception MMU Response
  | read va => return .byte (← tries (·.read va))
  | write va value => do
    MMU.write va value
    return .done
  | readWord va => return .word (← tries (·.readWord va))
  | writeWord va value => do
    MMU.writeWord va value
    return .done

/-- The same on a flat memory: a word access is its four byte accesses in
order, up to the first one refused. -/
def flat (guard : FlatMemory.Guard Exception Word) :
    Access → EStateM Exception (Word → Byte) Response
  | read va => return .byte (← FlatMemory.read guard va)
  | write va value => do
    FlatMemory.write guard va value
    return .done
  | readWord va => return .word (ofBytes (← FlatMemory.readAll guard (wordAddresses va)))
  | writeWord va value => do
    FlatMemory.writeAll guard (wordCells va value)
    return .done

/-- The byte writes a call carries out. -/
def writes (guard : FlatMemory.Guard Exception Word) : Access → List (Word × Byte)
  | read _ => []
  | write va value => FlatMemory.carriedOut guard [(va, value)]
  | readWord _ => []
  | writeWord va value => FlatMemory.carriedOut guard (wordCells va value)

end Access

section Simulation

variable {origin : MMU}

theorem coupled_read (va : Word) :
    Coupled origin.Represents (tries (·.read va)) (FlatMemory.read origin.guard va) := by
  intro mmu m h
  cases hg : origin.guard false va with
  | none =>
      rw [run_tries, h.read_eq hg, FlatMemory.run_read_of_none m hg]
      exact ⟨rfl, h⟩
  | some e =>
      have hread : mmu.read va = .error e :=
        MMU.read_of_guard_some (by rw [h.guard_eq]; exact hg)
      rw [run_tries, hread, FlatMemory.run_read_of_some m hg]
      exact ⟨rfl, h⟩

theorem coupled_write_flat (hinj : origin.pageTable.FramesDistinct) (va : Word) (b : Byte) :
    Coupled origin.Represents (MMU.write va b) (FlatMemory.write origin.guard va b) := by
  intro mmu m h
  cases hg : origin.guard true va with
  | none =>
      have hreach := (MMU.guard_eq_none_iff mmu true va).mp (by rw [h.guard_eq]; exact hg)
      rw [MMU.run_write_of_reaches b hreach, FlatMemory.run_write_of_none m b hg, h.physical_eq]
      exact ⟨rfl, h.store hinj (MMU.Represents.mem_mapped hg) b⟩
  | some e =>
      rw [MMU.run_write_of_guard_some b (by rw [h.guard_eq]; exact hg),
        FlatMemory.run_write_of_some m b hg]
      exact ⟨rfl, h⟩

/-- A word read is its four byte reads in order. -/
theorem tries_readWord (va : Word) :
    (tries (·.readWord va) : EStateM Exception MMU Word) = (do
      let b0 ← tries (·.read va)
      let b1 ← tries (·.read (va + 1))
      let b2 ← tries (·.read (va + 2))
      let b3 ← tries (·.read (va + 3))
      return leWord b0 b1 b2 b3) := by
  simp only [← shift_or_eq_leWord, ← tries_pure, ← tries_bind]
  rfl

/-- **One call**: every call of the MMU is one of the flat memory. -/
theorem coupled_access (hinj : origin.pageTable.FramesDistinct) (access : Access) :
    Coupled origin.Represents access.perform (access.flat origin.guard) := by
  cases access with
  | read va => exact .bind (coupled_read va) fun _ => .pure _
  | write va value => exact .bind (coupled_write_flat hinj va value) fun _ => .pure _
  | readWord va =>
      simp only [Access.perform, Access.flat, tries_readWord, wordAddresses, FlatMemory.readAll,
        bind_assoc, pure_bind]
      exact .bind (coupled_read va) fun _ => .bind (coupled_read (va + 1)) fun _ =>
        .bind (coupled_read (va + 2)) fun _ => .bind (coupled_read (va + 3)) fun _ => .pure _
  | writeWord va value =>
      have hwrite := coupled_write_flat hinj
      simp only [Access.perform, Access.flat, MMU.writeWord_eq_writes, wordCells,
        FlatMemory.writeAll, bind_assoc, pure_bind]
      exact .bind (hwrite va _) fun _ => .bind (hwrite (va + 1) _) fun _ =>
        .bind (hwrite (va + 2) _) fun _ => .bind (hwrite (va + 3) _) fun _ => .pure _

end Simulation

/-! ## sequences of calls -/

/-- The responses to a sequence of calls, some of which may throw, and the MMU
they leave. -/
def performAll (accesses : List Access) (mmu : MMU) :
    List (Except Exception Response) × MMU :=
  runAll (accesses.map Access.perform) mmu

/-- The same on a flat memory. -/
def flatAll (guard : FlatMemory.Guard Exception Word) (accesses : List Access)
    (m : Word → Byte) : List (Except Exception Response) × (Word → Byte) :=
  runAll (accesses.map (Access.flat guard)) m

/-- A call leaves the flat memory its writes make. -/
theorem final_flat (guard : FlatMemory.Guard Exception Word) (access : Access) (m : Word → Byte) :
    final ((access.flat guard).run m) = FlatMemory.replay m (access.writes guard) := by
  cases access with
  | read va => exact (final_bind_pure _ _ m).trans (FlatMemory.final_read guard va m)
  | write va value => exact (final_bind_pure _ _ m).trans (FlatMemory.final_write guard va value m)
  | readWord va => exact (final_bind_pure _ _ m).trans (FlatMemory.final_readAll guard _ m)
  | writeWord va value => exact (final_bind_pure _ _ m).trans (FlatMemory.final_writeAll guard _ m)

/-- So does a sequence of calls. -/
theorem flatAll_snd (guard : FlatMemory.Guard Exception Word) (accesses : List Access)
    (m : Word → Byte) : (flatAll guard accesses m).2 =
      FlatMemory.replay m (accesses.flatMap (Access.writes guard)) := by
  induction accesses generalizing m with
  | nil => rfl
  | cons access accesses ih =>
      rw [List.flatMap_cons, FlatMemory.replay_append, ← final_flat, ← ih]
      rfl

/-- **One sequence**: what is reported is what the flat memory reports, and the
MMU left keeps the flat memory left. -/
theorem performAll_flatAll (mmu : MMU) (h : mmu.pageTable.FramesDistinct)
    (accesses : List Access) :
    (performAll accesses mmu).1 = (flatAll mmu.guard accesses mmu.flat).1 ∧
      mmu.Represents (performAll accesses mmu).2 (flatAll mmu.guard accesses mmu.flat).2 :=
  Coupled.runAll (coupled_access h) accesses (MMU.Represents.start mmu)

/-- Under an injective page table a write leaves alone what every other address
reads. -/
theorem read_write_of_ne {mmu : MMU} (h : mmu.pageTable.FramesDistinct) (va : Word) (b : Byte)
    {va' : Word} (hne : va' ≠ va) :
    (final ((MMU.write va b).run mmu)).read va' = mmu.read va' := by
  have hstart := MMU.Represents.start mmu
  obtain ⟨-, hafter⟩ := coupled_write_flat h va b mmu mmu.flat hstart
  cases hg : mmu.guard false va' with
  | some e =>
      rw [MMU.read_of_guard_some hg, MMU.read_of_guard_some (by rw [hafter.guard_eq]; exact hg)]
  | none =>
      rw [hafter.read_eq hg, hstart.read_eq hg]
      cases hw : mmu.guard true va with
      | some e => rw [FlatMemory.run_write_of_some _ b hw, final_error]
      | none => rw [FlatMemory.run_write_of_none _ b hw, final_ok, Function.update_of_ne hne]

/-- **Flat virtual memory**: under an injective page table, a sequence of calls
is answered call by call as a flat memory answers it, whose word accesses are
their four byte accesses in order; a byte read afterwards is the one last
written to its address, or the one read there at first; and a write leaves
alone what every other address reads. -/
theorem mmu_refines_flat (mmu : MMU) (h : mmu.pageTable.FramesDistinct) (accesses : List Access) :
    (performAll accesses mmu).1 = (flatAll mmu.guard accesses mmu.flat).1 ∧
    (∀ va b, (performAll accesses mmu).2.read va = .ok b →
      ∃ b₀, mmu.read va = .ok b₀ ∧
        b = (FlatMemory.lastWritten (accesses.flatMap (Access.writes mmu.guard)) va).getD b₀) ∧
    (∀ va b va', va' ≠ va →
      (final ((MMU.write va b).run (performAll accesses mmu).2)).read va' =
        (performAll accesses mmu).2.read va') := by
  obtain ⟨hresponses, hkept⟩ := performAll_flatAll mmu h accesses
  refine ⟨hresponses, fun va b hread => ?_, fun va b va' hne => ?_⟩
  · cases hg : mmu.guard false va with
    | some e =>
        rw [MMU.read_of_guard_some (by rw [hkept.guard_eq]; exact hg)] at hread
        contradiction
    | none =>
        rw [hkept.read_eq hg, flatAll_snd, FlatMemory.replay_apply] at hread
        exact ⟨mmu.flat va, (MMU.Represents.start mmu).read_eq hg, (Except.ok.inj hread).symm⟩
  · have htable : (performAll accesses mmu).2.pageTable.FramesDistinct := by
      rw [hkept.pageTable]
      exact h
    exact read_write_of_ne htable va b hne

/-- Two pages of memory, each mapped to the frame of the other. -/
def twoPages : MMU :=
  ⟨.new 8192, (PageTable.new.addEntry 0x0000 ⟨0x101F⟩).addEntry 0x1000 ⟨0x001F⟩, .user⟩

theorem framesDistinct_twoPages : twoPages.pageTable.FramesDistinct := by
  have hentry : ∀ key e, twoPages.pageTable.entries key = some e →
      key = 0x1000 ∧ e = ⟨0x001F⟩ ∨ key = 0x0000 ∧ e = ⟨0x101F⟩ := by
    intro key e h
    have hentries : twoPages.pageTable.entries key =
        if key = 0x1000 then some ⟨0x001F⟩ else if key = 0x0000 then some ⟨0x101F⟩ else none := rfl
    rw [hentries] at h
    split_ifs at h with h1 h0
    · exact .inl ⟨h1, (Option.some.inj h).symm⟩
    · exact .inr ⟨h0, (Option.some.inj h).symm⟩
  intro key key' e e' _ _ h h' _ _ hframe
  obtain ⟨rfl, rfl⟩ | ⟨rfl, rfl⟩ := hentry key e h <;>
    obtain ⟨rfl, rfl⟩ | ⟨rfl, rfl⟩ := hentry key' e' h'
  · rfl
  · exact absurd hframe (by decide)
  · exact absurd hframe (by decide)
  · rfl

/-- A word written across the boundary of the pages is read back, its bytes on
both sides of it, after a word read that leaves the second page. -/
theorem mmu_refines_flat_twoPages :
    (performAll [.writeWord 0x0FFE 0x44332211, .readWord 0x1FFE, .readWord 0x0FFE,
        .read 0x0FFF, .read 0x1000] twoPages).1 =
      [.ok .done,
        .error (.pageFaultException "PageTable::get_entry - No entry for virtual address"),
        .ok (.word 0x44332211), .ok (.byte 0x22), .ok (.byte 0x33)] := by
  rw [(mmu_refines_flat twoPages framesDistinct_twoPages _).1]
  decide +kernel

end VirtuV
