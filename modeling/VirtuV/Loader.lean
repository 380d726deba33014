import VirtuV.Integrity
import VirtuV.Program
import VirtuV.Reachable

/-!
# VirtuV.Loader

Loading a file of any length on a CPU that has run whatever it has run.

The constructor maps one page, whatever the size of memory, and no method of
the CPU maps another.  So the copy loop goes through for a file no longer than
memory and page, and stops at their end for a longer one, with what it has
copied by then left in memory.
-/

namespace VirtuV

open Stateful
open Bits

/-! ## the states of a CPU -/

/-- The states a CPU gets into by its own methods: it is constructed, programs
are loaded and cycles run, with whatever result. -/
inductive CPU.Attainable (memorySize : Nat) (garbage : Uninitialized) : CPU → Prop where
  | new : Attainable memorySize garbage (.new memorySize garbage)
  | loadProgram {self : CPU} (file : ProgramFile) (h : Attainable memorySize garbage self) :
      Attainable memorySize garbage (self.loadProgram file).2
  | runCycle {self : CPU} (h : Attainable memorySize garbage self) :
      Attainable memorySize garbage (final (CPU.runCycle.run self))

/-- All of them have the page table, the mode and the size of memory of the
constructor. -/
theorem CPU.Attainable.sameLayout {memorySize : Nat} {garbage : Uninitialized} {self : CPU}
    (h : Attainable memorySize garbage self) :
    (CPU.new memorySize garbage).pipeline.mmu.SameLayout self.pipeline.mmu := by
  induction h with
  | new => exact refl _
  | loadProgram file _ ih =>
      exact IsTrans.trans _ _ _ ih (rel_loadProgram MMU.keeps_layout file _)
  | @runCycle self _ ih =>
      have hcycle := Pipeline.rel_runCycle MMU.keeps_layout self.pipeline
      rw [CPU.runCycle, final_zoom]
      exact IsTrans.trans _ _ _ ih hcycle

/-- Cycle after cycle stays among them. -/
theorem CPU.Attainable.cycles {memorySize : Nat} {garbage : Uninitialized} {self : CPU}
    (h : Attainable memorySize garbage self) (n : Nat) :
    Attainable memorySize garbage (after CPU.runCycle n self) := by
  induction n with
  | zero => exact h
  | succ n ih => rw [after_succ]; exact ih.runCycle

/-- The run loop stays among them. -/
theorem CPU.Attainable.runLoop {memorySize : Nat} {garbage : Uninitialized} {self self' : CPU}
    {fuel : Nat} {e : Exception} (h : Attainable memorySize garbage self)
    (hloop : CPU.runLoop fuel self = some (e, self')) : Attainable memorySize garbage self' := by
  induction fuel generalizing self with
  | zero => contradiction
  | succ fuel ih =>
      have hnext := h.runCycle
      rw [CPU.runLoop] at hloop
      cases hcycle : CPU.runCycle.run self with
      | ok _ next =>
          rw [hcycle] at hloop hnext
          exact ih hnext hloop
      | error e' last =>
          rw [hcycle] at hloop hnext
          obtain ⟨-, rfl⟩ := Prod.mk.inj (Option.some.inj hloop)
          exact hnext

/-- So does `run`, whether it returns or throws. -/
theorem CPU.Attainable.run {memorySize : Nat} {garbage : Uninitialized} {self : CPU} {fuel : Nat}
    {r : EStateM.Result Exception CPU Unit} (h : Attainable memorySize garbage self)
    (hrun : self.run fuel = some r) : Attainable memorySize garbage (final r) := by
  unfold CPU.run at hrun
  cases hloop : CPU.runLoop fuel self with
  | none => rw [hloop] at hrun; contradiction
  | some p =>
      obtain ⟨e, self'⟩ := p
      have hself' := h.runLoop hloop
      rw [hloop] at hrun
      cases e <;> obtain rfl := Option.some.inj hrun <;> exact hself'

/-- They are all reachable, memory being left alone. -/
theorem CPU.Attainable.reachable {memorySize : Nat} {garbage : Uninitialized} {self : CPU}
    (h : Attainable memorySize garbage self) : Reachable memorySize garbage self := by
  induction h with
  | new => exact .new
  | loadProgram file _ ih => exact .loadProgram file ih
  | runCycle _ ih => exact .runCycle ih

/-! ## where writes reach -/

/-- How many addresses, from 0 on, a CPU of this size has both mapped and
backed by memory. -/
def loadable (memorySize : Nat) : Nat := min memorySize 4096

/-- Accesses of a fresh CPU reach memory below that and nowhere else. -/
theorem reaches_new_iff (memorySize : Nat) (garbage : Uninitialized) (isWrite : Bool) (va : Word) :
    (CPU.new memorySize garbage).pipeline.mmu.Reaches isWrite va ↔
      va.toNat < loadable memorySize := by
  have hmap : (CPU.new memorySize garbage).pipeline.mmu.MapsFirstPage := rfl
  have hlen : (CPU.new memorySize garbage).pipeline.mmu.physicalMemory.memory.length =
      memorySize := List.length_replicate
  unfold loadable
  by_cases hlow : va.toNat < 4096
  · constructor
    · intro h
      have hbacked := h.2
      rw [MMU.physical_of_lt hmap hlow, hlen] at hbacked
      omega
    · intro h
      exact MMU.reaches_of_lt hmap isWrite hlow (by omega)
  · have hpage := MMU.page_ne_of_le (Nat.le_of_not_lt hlow)
    have hnone : (CPU.new memorySize garbage).pipeline.mmu.pageTable.entries
        (va &&& 0xFFFFF000) = none := if_neg hpage
    constructor
    · intro h
      have hgrants := h.1
      unfold MMU.grants at hgrants
      rw [hnone] at hgrants
      contradiction
    · omega

namespace CPU.Attainable

variable {memorySize : Nat} {garbage : Uninitialized} {self : CPU}

theorem mapsFirstPage (h : Attainable memorySize garbage self) :
    self.pipeline.mmu.MapsFirstPage := by
  unfold MMU.MapsFirstPage
  rw [h.sameLayout.pageTable]
  rfl

theorem length_memory (h : Attainable memorySize garbage self) :
    self.pipeline.mmu.physicalMemory.memory.length = memorySize :=
  h.sameLayout.size.trans List.length_replicate

/-- No load and no cycle changes a byte that writes do not reach. -/
theorem confined (h : Attainable memorySize garbage self) :
    (CPU.new memorySize garbage).pipeline.mmu.Confined self.pipeline.mmu := by
  induction h with
  | new => exact refl _
  | loadProgram file _ ih => exact IsTrans.trans _ _ _ ih (confined_loadProgram file _)
  | @runCycle self _ ih =>
      have hcycle := Pipeline.rel_runCycle MMU.keeps_write self.pipeline
      rw [CPU.runCycle, final_zoom]
      exact IsTrans.trans _ _ _ ih hcycle

/-- So memory beyond the page is as the constructor left it. -/
theorem getElem?_beyond (h : Attainable memorySize garbage self) {a : Nat} (hpage : 4096 ≤ a)
    (ha : a < memorySize) : self.pipeline.mmu.physicalMemory.memory[a]? = some 0 := by
  have hnew : (CPU.new memorySize garbage).pipeline.mmu.physicalMemory.memory[a]? = some 0 :=
    List.getElem?_replicate_of_lt ha
  by_contra hne
  obtain ⟨hlt, key, e, -, hentry, -, hframe⟩ := h.confined.written a (by rw [hnew]; exact hne)
  have haddr : 4096 ≤ (BitVec.ofNat 32 a).toNat := by
    rw [BitVec.toNat_ofNat, Nat.mod_eq_of_lt hlt]
    exact hpage
  have hout := MMU.page_ne_of_le haddr
  -- the one entry there is maps the first frame
  have hfirst : (CPU.new memorySize garbage).pipeline.mmu.pageTable.entries key =
      if key = 0 then some ⟨0x1F⟩ else none := rfl
  rw [hfirst] at hentry
  split at hentry
  · obtain rfl := Option.some.inj hentry
    exact hout (hframe.symm.trans (by decide))
  · contradiction

end CPU.Attainable

/-! ## the copy loop -/

/-- Copying a file is copying a first part and then the rest behind it. -/
theorem CPU.copyToMemory_append (bytes rest : List Byte) (i : Nat) :
    copyToMemory i (bytes ++ rest) = (do
      copyToMemory i bytes
      copyToMemory (i + bytes.length) rest) := by
  induction bytes generalizing i with
  | nil => rfl
  | cons byte bytes ih =>
      rw [List.cons_append, copyToMemory, copyToMemory, bind_assoc]
      congr 1
      funext _
      rw [ih, List.length_cons, Nat.add_right_comm, Nat.add_assoc]

/-- A file too long is copied as far as writes reach; the byte after that
throws. -/
theorem CPU.Attainable.run_copyToMemory_long {memorySize : Nat} {garbage : Uninitialized}
    {self : CPU} (h : Attainable memorySize garbage self) {bytes : List Byte}
    (hlong : loadable memorySize < bytes.length) :
    ∃ e, (copyToMemory 0 bytes).run self.pipeline.mmu = .error e { self.pipeline.mmu with
      physicalMemory := ⟨overlay self.pipeline.mmu.physicalMemory.memory 0
        (bytes.take (loadable memorySize))⟩ } := by
  have hpage : loadable memorySize ≤ 4096 := Nat.min_le_right _ _
  have hmemory : loadable memorySize ≤ memorySize := Nat.min_le_left _ _
  have hlen := h.length_memory
  have htake : (bytes.take (loadable memorySize)).length = loadable memorySize :=
    List.length_take_of_le (Nat.le_of_lt hlong)
  have hcopy := run_copyToMemory (bytes.take (loadable memorySize)) 0 _ h.mapsFirstPage
    (by omega) (by omega)
  -- the copy of the first part has not changed where writes reach
  have hlayout := MMU.keeps_copyToMemory_of_write MMU.keeps_layout 0
    (bytes.take (loadable memorySize)) self.pipeline.mmu
  rw [hcopy, final_ok] at hlayout
  have haddr : (BitVec.ofNat 32 (loadable memorySize)).toNat = loadable memorySize := by
    rw [BitVec.toNat_ofNat]
    exact Nat.mod_eq_of_lt (by omega)
  have hstop : ¬ MMU.Reaches { self.pipeline.mmu with
      physicalMemory := ⟨overlay self.pipeline.mmu.physicalMemory.memory 0
        (bytes.take (loadable memorySize))⟩ } true (BitVec.ofNat 32 (loadable memorySize)) := by
    rw [hlayout.reaches_iff, h.sameLayout.reaches_iff, reaches_new_iff, haddr]
    exact Nat.lt_irrefl _
  obtain ⟨e, -, hwrite⟩ := MMU.run_write_of_not_reaches bytes[loadable memorySize] hstop
  refine ⟨e, ?_⟩
  conv => lhs; rw [← List.take_append_drop (loadable memorySize) bytes]
  rw [copyToMemory_append, run_bind_ok hcopy, htake, Nat.zero_add,
    List.drop_eq_getElem_cons hlong, copyToMemory, run_bind_error hwrite]

/-! ## loading -/

namespace CPU

theorem loadProgram_contents_error {self : CPU} {bytes : List Byte} {mmu : MMU} {e : Exception}
    (h : (copyToMemory 0 bytes).run self.pipeline.mmu = .error e mmu) :
    self.loadProgram (.contents bytes) =
      (.ok (-1), { self with pipeline := { self.pipeline with mmu } }) := by
  rw [loadProgram, h]

namespace Attainable

variable {memorySize : Nat} {garbage : Uninitialized} {self : CPU} {bytes : List Byte}

/-- A file that fits is laid over the start of memory, and `pc` is 0. -/
theorem loadProgram_short (h : Attainable memorySize garbage self)
    (hshort : bytes.length ≤ loadable memorySize) :
    self.loadProgram (.contents bytes) = (.ok 0, { self with pipeline := { self.pipeline with
      mmu := { self.pipeline.mmu with
        physicalMemory := ⟨overlay self.pipeline.mmu.physicalMemory.memory 0 bytes⟩ }
      registerBank := self.pipeline.registerBank.setPc 0 } }) := by
  have hpage : loadable memorySize ≤ 4096 := Nat.min_le_right _ _
  have hmemory : loadable memorySize ≤ memorySize := Nat.min_le_left _ _
  have hlen := h.length_memory
  exact loadProgram_contents
    (run_copyToMemory bytes 0 _ h.mapsFirstPage (by omega) (by omega))

/-- Of a file that does not, as much as fits is laid over it, and that is all. -/
theorem loadProgram_long (h : Attainable memorySize garbage self)
    (hlong : loadable memorySize < bytes.length) :
    self.loadProgram (.contents bytes) = (.ok (-1), { self with pipeline := { self.pipeline with
      mmu := { self.pipeline.mmu with
        physicalMemory := ⟨overlay self.pipeline.mmu.physicalMemory.memory 0
          (bytes.take (loadable memorySize))⟩ } } }) := by
  obtain ⟨e, hcopy⟩ := h.run_copyToMemory_long hlong
  exact loadProgram_contents_error hcopy

/-- A program that fits is loaded and run, and the registers are then those
RV32I computes from what they were. -/
theorem run_program (h : Attainable memorySize garbage self) (is : List Rv32i.AluInstr)
    (hfit : (programFile is).length ≤ loadable memorySize) :
    ∃ loaded self', self.loadProgram (.contents (programFile is)) = (.ok 0, loaded) ∧
      (∀ fuel, is.length < fuel → loaded.run fuel = some (.ok () self')) ∧
      self'.pipeline.registerBank.x = Rv32i.exec is self.pipeline.registerBank.x ∧
      self'.pipeline.mmu.physicalMemory.memory =
        overlay self.pipeline.mmu.physicalMemory.memory 0 (programFile is) := by
  have hpage : loadable memorySize ≤ 4096 := Nat.min_le_right _ _
  have hload := h.loadProgram_short hfit
  have hloaded := h.loadProgram (.contents (programFile is))
  rw [hload] at hloaded
  have hold := holds_overlay hloaded.mapsFirstPage (programWords is)
    (self.pipeline.mmu.physicalMemory.memory.drop (programFile is).length)
    (by rw [← length_leBytes]; exact Nat.le_trans hfit hpage)
    (by
      show overlay self.pipeline.mmu.physicalMemory.memory 0 (programFile is) = _
      rw [overlay, List.take_zero, List.nil_append, Nat.zero_add, programFile])
  obtain ⟨self', -, hrun, hx, -, hmmu⟩ := CPU.runLoop_program is 0 _ rfl hold
  refine ⟨_, self', hload, fun fuel hfuel => ?_, hx, ?_⟩
  · rw [CPU.run, hrun fuel hfuel]
  · rw [hmmu]

/-- So the status tells whether the file fits. -/
theorem status_eq_zero_iff (h : Attainable memorySize garbage self) :
    (self.loadProgram (.contents bytes)).1 = .ok 0 ↔ bytes.length ≤ loadable memorySize := by
  by_cases hfit : bytes.length ≤ loadable memorySize
  · rw [h.loadProgram_short hfit]
    exact ⟨fun _ => hfit, fun _ => rfl⟩
  · have hne : (.ok (-1) : Except Exception Int) ≠ .ok 0 := by decide
    rw [h.loadProgram_long (Nat.lt_of_not_le hfit)]
    exact ⟨fun hstatus => absurd hstatus hne, fun hshort => absurd hshort hfit⟩

end Attainable

/-- Three words of memory with the two-instruction program of the test suite. -/
def bootTwo : CPU := .boot 12 ⟨7, 8, 9⟩ (programFile [.imm .addi 1 0 42, .imm .addi 2 1 58])

theorem attainable_bootTwo : Attainable 12 ⟨7, 8, 9⟩ bootTwo := .loadProgram (.contents _) .new

/-- From `cpu` to `cpu'` a file of these bytes has been loaded: they are at the
start of memory and can be read there word for word, the rest of memory and
every register are as before, and `pc` is 0. -/
structure Loaded (cpu cpu' : CPU) (bytes : List Byte) : Prop where
  contents : ∀ i < bytes.length, cpu'.pipeline.mmu.physicalMemory.memory[i]? = bytes[i]?
  rest : ∀ i, bytes.length ≤ i → cpu'.pipeline.mmu.physicalMemory.memory[i]? =
    cpu.pipeline.mmu.physicalMemory.memory[i]?
  registers : cpu'.pipeline.registerBank.registers = cpu.pipeline.registerBank.registers
  pc : cpu'.pipeline.registerBank.pc = 0
  words : ∀ (a : Word) (_ : a.toNat + 3 < bytes.length), cpu'.readWordFromMemory a =
    leWord bytes[a.toNat] bytes[a.toNat + 1] bytes[a.toNat + 2] bytes[a.toNat + 3]

/-- Where memory holds a file of at most a page, word reads read the file. -/
theorem readWordFromMemory_of_contents {self : CPU} {bytes : List Byte}
    (hmap : self.pipeline.mmu.MapsFirstPage) (hpage : bytes.length ≤ 4096)
    (hmem : ∀ i < bytes.length, self.pipeline.mmu.physicalMemory.memory[i]? = bytes[i]?)
    (a : Word) (h : a.toNat + 3 < bytes.length) : self.readWordFromMemory a =
      leWord bytes[a.toNat] bytes[a.toNat + 1] bytes[a.toNat + 2] bytes[a.toNat + 3] := by
  have hread : ∀ (k : Nat) (hk : k < 4), self.pipeline.mmu.read (a + BitVec.ofNat 32 k) =
      .ok bytes[a.toNat + k] := by
    intro k hk
    have haddr : (a + BitVec.ofNat 32 k).toNat = a.toNat + k := by
      rw [BitVec.toNat_add, BitVec.toNat_ofNat, Nat.mod_eq_of_lt (by omega : k < 2 ^ 32)]
      exact Nat.mod_eq_of_lt (by omega)
    apply MMU.read_of_lt hmap (by omega)
    rw [haddr, hmem _ (by omega), List.getElem?_eq_getElem]
  have h0 := hread 0 (by decide)
  simp only [BitVec.add_zero, Nat.add_zero] at h0
  rw [readWordFromMemory, MMU.readWord_of_read h0 (hread 1 (by decide)) (hread 2 (by decide))
    (hread 3 (by decide))]

theorem Attainable.loaded_of_short {memorySize : Nat} {garbage : Uninitialized} {self : CPU}
    {bytes : List Byte} (h : Attainable memorySize garbage self)
    (hshort : bytes.length ≤ loadable memorySize) :
    Loaded self (self.loadProgram (.contents bytes)).2 bytes := by
  have hpage : bytes.length ≤ 4096 := Nat.le_trans hshort (Nat.min_le_right _ _)
  rw [h.loadProgram_short hshort]
  have hcontents : ∀ i < bytes.length,
      (overlay self.pipeline.mmu.physicalMemory.memory 0 bytes)[i]? = bytes[i]? := by
    intro i hi
    rw [getElem?_overlay_zero, if_pos hi]
  exact {
    contents := hcontents
    rest := fun i hi => by
      rw [getElem?_overlay_zero, if_neg (Nat.not_lt_of_le hi)]
    registers := rfl
    pc := rfl
    words := readWordFromMemory_of_contents h.mapsFirstPage hpage hcontents }

/-- Loading a file as it should be: the status is 0 exactly if memory is large
enough for the file, and then the file has been loaded. -/
def LoadsWhatFits (self : CPU) (memorySize : Nat) (bytes : List Byte) : Prop :=
  ((self.loadProgram (.contents bytes)).1 = .ok 0 ↔ bytes.length ≤ memorySize) ∧
  ((self.loadProgram (.contents bytes)).1 = .ok 0 →
    Loaded self (self.loadProgram (.contents bytes)).2 bytes)

end CPU

/-- **Loading**: a file is loaded as it should be exactly if it is no longer
than a page or longer than memory.  One between these would fit memory, but
not the one page that the constructor maps. -/
theorem loadProgram_loads_iff {memorySize : Nat} {garbage : Uninitialized} {self : CPU}
    (h : CPU.Attainable memorySize garbage self) (bytes : List Byte) :
    self.LoadsWhatFits memorySize bytes ↔ bytes.length ≤ 4096 ∨ memorySize < bytes.length := by
  have hstatus : (self.loadProgram (.contents bytes)).1 = .ok 0 ↔
      bytes.length ≤ loadable memorySize := h.status_eq_zero_iff
  have hloaded : (self.loadProgram (.contents bytes)).1 = .ok 0 →
      CPU.Loaded self (self.loadProgram (.contents bytes)).2 bytes :=
    fun hzero => h.loaded_of_short (hstatus.mp hzero)
  unfold CPU.LoadsWhatFits
  rw [and_iff_left hloaded, hstatus, loadable]
  omega

/-- A fresh CPU of one megabyte loads a file of one word. -/
theorem loadProgram_loads_iff_word :
    (CPU.new 1048576 ⟨0, 0, 0⟩).LoadsWhatFits 1048576 [0x6F, 0x00, 0x00, 0x00] :=
  (loadProgram_loads_iff .new [0x6F, 0x00, 0x00, 0x00]).mpr (.inl (by decide))

/-- A fresh CPU of two pages refuses a file of one page and a byte. -/
theorem loadProgram_refuses_second_page :
    ((CPU.new 8192 ⟨0, 0, 0⟩).loadProgram (.contents (List.replicate 4097 0))).1 = .ok (-1) ∧
    (List.replicate 4097 (0 : Byte)).length ≤ 8192 ∧
    ¬ (∀ memorySize ≤ 2 ^ 32, ∀ garbage self, CPU.Attainable memorySize garbage self →
      ∀ bytes, self.LoadsWhatFits memorySize bytes) := by
  have hlen : (List.replicate 4097 (0 : Byte)).length = 4097 := List.length_replicate
  have hnew : CPU.Attainable 8192 ⟨0, 0, 0⟩ (.new 8192 ⟨0, 0, 0⟩) := .new
  have hstatus : ((CPU.new 8192 ⟨0, 0, 0⟩).loadProgram
      (.contents (List.replicate 4097 0))).1 = .ok (-1) := by
    rw [hnew.loadProgram_long (by rw [hlen]; decide)]
  refine ⟨hstatus, by rw [hlen]; decide, fun h => ?_⟩
  have hzero := (h 8192 (by decide) _ _ hnew (List.replicate 4097 0)).1.mpr (by rw [hlen]; decide)
  rw [hstatus] at hzero
  revert hzero
  decide

/-! ## a load that fails -/

namespace CPU

/-- From `cpu` to `cpu'` as much of a file as writes reach has been laid over
memory, and memory is otherwise as before. -/
structure Overwritten (cpu cpu' : CPU) (limit : Nat) (bytes : List Byte) : Prop where
  tooLong : limit < bytes.length
  memory : ∀ i, cpu'.pipeline.mmu.physicalMemory.memory[i]? =
    if i < limit then bytes[i]? else cpu.pipeline.mmu.physicalMemory.memory[i]?

/-- Memory is then as it was exactly if it held that much of the file before. -/
theorem Overwritten.memory_eq_iff {cpu cpu' : CPU} {limit : Nat} {bytes : List Byte}
    (h : Overwritten cpu cpu' limit bytes) :
    cpu'.pipeline.mmu.physicalMemory = cpu.pipeline.mmu.physicalMemory ↔
      ∀ i < limit, cpu.pipeline.mmu.physicalMemory.memory[i]? = bytes[i]? := by
  constructor
  · intro hsame i hi
    rw [← hsame, h.memory, if_pos hi]
  · intro hheld
    have hlist : cpu'.pipeline.mmu.physicalMemory.memory =
        cpu.pipeline.mmu.physicalMemory.memory := by
      apply List.ext_getElem?
      intro i
      rw [h.memory]
      by_cases hi : i < limit
      · rw [if_pos hi, hheld i hi]
      · rw [if_neg hi]
    exact congrArg PhysicalMemory.mk hlist

theorem Attainable.overwritten_of_long {memorySize : Nat} {garbage : Uninitialized} {self : CPU}
    {bytes : List Byte} (h : Attainable memorySize garbage self)
    (hlong : loadable memorySize < bytes.length) :
    Overwritten self (self.loadProgram (.contents bytes)).2 (loadable memorySize) bytes := by
  refine ⟨hlong, fun i => ?_⟩
  rw [h.loadProgram_long hlong, getElem?_overlay_zero,
    List.length_take_of_le (Nat.le_of_lt hlong)]
  by_cases hi : i < loadable memorySize
  · rw [if_pos hi, if_pos hi, List.getElem?_take_of_lt hi]
  · rw [if_neg hi, if_neg hi]

end CPU

/-- **Failed loads**: registers, `pc`, page table, mode and the size of memory
are as before, and so is memory if the file could not be opened or read.  Else
the file was too long, and as much of it as writes reach has been laid over
memory; nothing is restored. -/
theorem loadProgram_fails {memorySize : Nat} {garbage : Uninitialized} {self : CPU}
    (h : CPU.Attainable memorySize garbage self) (file : ProgramFile)
    (hfail : (self.loadProgram file).1 = .ok (-1)) :
    (self.loadProgram file).2.pipeline.registerBank = self.pipeline.registerBank ∧
    self.pipeline.mmu.SameLayout (self.loadProgram file).2.pipeline.mmu ∧
    ((file = .unopened ∨ file = .unreadable) → (self.loadProgram file).2 = self) ∧
    (∀ bytes, file = .contents bytes →
      CPU.Overwritten self (self.loadProgram file).2 (loadable memorySize) bytes ∧
      ((self.loadProgram file).2.pipeline.mmu.physicalMemory = self.pipeline.mmu.physicalMemory ↔
        ∀ i < loadable memorySize,
          self.pipeline.mmu.physicalMemory.memory[i]? = bytes[i]?)) := by
  have hlayout := rel_loadProgram MMU.keeps_layout file self
  cases file with
  | unopened => exact ⟨rfl, hlayout, fun _ => rfl, by rintro bytes ⟨⟩⟩
  | oversized => contradiction
  | unallocated => contradiction
  | unreadable => exact ⟨rfl, hlayout, fun _ => rfl, by rintro bytes ⟨⟩⟩
  | contents bytes =>
      have hlong : loadable memorySize < bytes.length := by
        have hne : ¬ (self.loadProgram (.contents bytes)).1 = .ok 0 := by
          rw [hfail]
          decide
        exact Nat.lt_of_not_le (mt h.status_eq_zero_iff.mpr hne)
      have hover := h.overwritten_of_long hlong
      refine ⟨?_, hlayout, ?_, ?_⟩
      · rw [h.loadProgram_long hlong]
      · rintro (hfile | hfile) <;> contradiction
      · intro bytes' hfile
        obtain rfl := ProgramFile.contents.inj hfile
        exact ⟨hover, hover.memory_eq_iff⟩

/-- A load that throws has found no buffer for the file, and leaves everything
as it was. -/
theorem CPU.loadProgram_throws {self : CPU} {file : ProgramFile} {e : Exception}
    (h : (self.loadProgram file).1 = .error e) :
    (self.loadProgram file).2 = self ∧ (e = .lengthError ∨ e = .badAlloc) := by
  cases file with
  | unopened => contradiction
  | oversized => exact ⟨rfl, .inl (Except.error.inj h).symm⟩
  | unallocated => exact ⟨rfl, .inr (Except.error.inj h).symm⟩
  | unreadable => contradiction
  | contents bytes =>
      rw [CPU.loadProgram] at h
      cases hcopy : (copyToMemory 0 bytes).run self.pipeline.mmu with
      | ok u mmu => rw [hcopy] at h; contradiction
      | error e' mmu => rw [hcopy] at h; contradiction

/-- A CPU of four bytes that holds a jump to itself, offered a file of five. -/
def loadOverEnd : CPU := CPU.boot 4 ⟨0, 0, 0⟩ [0x6F, 0x00, 0x00, 0x00]

theorem attainable_loadOverEnd : CPU.Attainable 4 ⟨0, 0, 0⟩ loadOverEnd :=
  .loadProgram (.contents [0x6F, 0x00, 0x00, 0x00]) .new

/-- Its `pc` is still 0. -/
theorem loadProgram_fails_overEnd :
    (loadOverEnd.loadProgram (.contents [1, 2, 3, 4, 5])).2.pipeline.registerBank.pc = 0 := by
  have hbank := (loadProgram_fails attainable_loadOverEnd (.contents [1, 2, 3, 4, 5])
    (by decide +kernel)).1
  rw [hbank]
  decide +kernel

/-- The jump is lost. -/
theorem loadProgram_overwrites :
    (loadOverEnd.loadProgram (.contents [1, 2, 3, 4, 5])).1 = .ok (-1) ∧
    loadOverEnd.pipeline.mmu.physicalMemory = ⟨[0x6F, 0x00, 0x00, 0x00]⟩ ∧
    (loadOverEnd.loadProgram (.contents [1, 2, 3, 4, 5])).2.pipeline.mmu.physicalMemory =
      ⟨[1, 2, 3, 4]⟩ ∧
    ¬ (∀ memorySize garbage self, CPU.Attainable memorySize garbage self → ∀ file,
      (self.loadProgram file).1 = .ok (-1) →
      (self.loadProgram file).2.pipeline.mmu.physicalMemory = self.pipeline.mmu.physicalMemory ∧
      (self.loadProgram file).2.pipeline.registerBank = self.pipeline.registerBank) := by
  have hstatus : (loadOverEnd.loadProgram (.contents [1, 2, 3, 4, 5])).1 = .ok (-1) := by
    decide +kernel
  have hbefore : loadOverEnd.pipeline.mmu.physicalMemory = ⟨[0x6F, 0x00, 0x00, 0x00]⟩ := by
    decide +kernel
  have hafter : (loadOverEnd.loadProgram (.contents [1, 2, 3, 4, 5])).2.pipeline.mmu.physicalMemory =
      ⟨[1, 2, 3, 4]⟩ := by decide +kernel
  refine ⟨hstatus, hbefore, hafter, fun h => ?_⟩
  have hsame := (h 4 _ loadOverEnd attainable_loadOverEnd _ hstatus).1
  rw [hbefore, hafter] at hsame
  revert hsame
  decide

end VirtuV
