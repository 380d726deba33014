import VirtuV.Alu

/-!
# VirtuV.Program

Loading a program and running it to its end.

* **the fresh CPU's page** — below 4096 every access of a fresh CPU reaches
  the physical byte of the same address;
* **the loader** — the copy loop lays the file over the start of memory;
* **the run** — arithmetic instructions in memory, followed by a jump to
  itself, are executed in order and end the run;
* **end to end** — the two together, from a fresh CPU.
-/

namespace VirtuV

open Stateful
open Bits
open Rv32i (AluInstr Registers)

/-! ## the fresh CPU's page -/

namespace MMU

/-- The first page is mapped to the first frame with every permission. -/
def MapsFirstPage (mmu : MMU) : Prop := mmu.pageTable.entries 0 = some ⟨0x1F⟩

/-- A low address is its own page offset. -/
theorem offset_of_lt {va : Word} (h : va.toNat < 4096) : va &&& 0xFFF = va := by
  have hmask : (0xFFF : Word) = BitVec.ofNat 32 (2 ^ 12 - 1) := by decide
  apply BitVec.eq_of_toNat_eq
  rw [hmask, toNat_and_lowMask 12 (by decide)]
  exact Nat.mod_eq_of_lt h

/-- A low address lies in page 0. -/
theorem page_of_lt {va : Word} (h : va.toNat < 4096) : va &&& 0xFFFFF000 = 0 := by
  have hmasks : (0xFFF : Word) &&& 0xFFFFF000 = 0 := by decide
  rw [← offset_of_lt h, BitVec.and_assoc, hmasks]
  exact BitVec.and_zero

/-- Any other address lies in another page. -/
theorem page_ne_of_le {va : Word} (h : 4096 ≤ va.toNat) : va &&& 0xFFFFF000 ≠ 0 := by
  intro hpage
  have hmasks : (0xFFF : Word) &&& 0xFFFFF000 = 0 := by decide
  have hself : va &&& 0xFFF = va := by
    apply eq_of_and_eq (m := 0xFFFFF000)
    · rw [BitVec.and_assoc, hmasks, hpage]
      exact BitVec.and_zero
    · rw [← PageTableEntry.offsetMask_eq_not, and_and_self]
  have hmask : (0xFFF : Word) = BitVec.ofNat 32 (2 ^ 12 - 1) := by decide
  have hlow := toNat_and_lowMask 12 (by decide) va
  rw [← hmask, hself] at hlow
  omega

section FirstPage

variable {mmu : MMU} {va : Word}

theorem physical_of_lt (hmap : mmu.MapsFirstPage) (h : va.toNat < 4096) :
    mmu.physical va = va := by
  have hframe : (0x1F : Word) &&& 0xFFFFF000 = 0 := by decide
  unfold physical
  rw [page_of_lt h, hmap]
  simp only [PageTableEntry.getPhysicalAddress]
  rw [hframe, offset_of_lt h]
  exact BitVec.zero_or

/-- The page grants every access in every mode. -/
theorem grants_of_lt (hmap : mmu.MapsFirstPage) (isWrite : Bool) (h : va.toNat < 4096) :
    mmu.grants isWrite va = true := by
  have hperm : ∀ b mode, PageTableEntry.permits (accessBit b) ⟨0x1F⟩ mode = true := by
    intro b mode
    cases b <;> cases mode <;> decide
  unfold grants
  rw [page_of_lt h, hmap]
  exact hperm isWrite mmu.privilegeMode

theorem reaches_of_lt (hmap : mmu.MapsFirstPage) (isWrite : Bool) (h : va.toNat < 4096)
    (hlen : va.toNat < mmu.physicalMemory.memory.length) : mmu.Reaches isWrite va := by
  refine ⟨grants_of_lt hmap isWrite h, ?_⟩
  rw [physical_of_lt hmap h]
  exact hlen

theorem read_of_lt (hmap : mmu.MapsFirstPage) (h : va.toNat < 4096) {b : Byte}
    (hb : mmu.physicalMemory.memory[va.toNat]? = some b) : mmu.read va = .ok b := by
  rw [read_eq_ok_iff, physical_of_lt hmap h]
  exact ⟨grants_of_lt hmap false h, hb⟩

end FirstPage

end MMU

/-! ## the loader -/

/-- Memory with `bytes` laid over it from `i` on. -/
def overlay (memory : List Byte) (i : Nat) (bytes : List Byte) : List Byte :=
  memory.take i ++ bytes ++ memory.drop (i + bytes.length)

/-- Writing one byte and laying the rest over it is laying them all over. -/
theorem overlay_set {memory : List Byte} {i : Nat} (h : i < memory.length) (byte : Byte)
    (bytes : List Byte) :
    overlay (memory.set i byte) (i + 1) bytes = overlay memory i (byte :: bytes) := by
  have htake : (memory.set i byte).take (i + 1) = memory.take i ++ [byte] := by
    rw [List.take_add_one, List.take_set_of_le (Nat.le_refl i), List.getElem?_set_self h]
    rfl
  have hdrop : (memory.set i byte).drop (i + 1 + bytes.length) =
      memory.drop (i + (byte :: bytes).length) := by
    rw [List.drop_set_of_lt (by omega), List.length_cons]
    congr 1
    omega
  rw [overlay, overlay, htake, hdrop, List.append_assoc (memory.take i), List.singleton_append]

/-- Laid over the start of memory, `bytes` replace the bytes of their indices. -/
theorem getElem?_overlay_zero (memory bytes : List Byte) (i : Nat) :
    (overlay memory 0 bytes)[i]? = if i < bytes.length then bytes[i]? else memory[i]? := by
  rw [overlay, List.take_zero, List.nil_append, Nat.zero_add]
  by_cases hi : i < bytes.length
  · rw [if_pos hi, List.getElem?_append_left hi]
  · rw [if_neg hi, List.getElem?_append_right (by omega), List.getElem?_drop]
    congr 1
    omega

/-- The copy loop lays the file over memory, if both page and memory hold it. -/
theorem run_copyToMemory (bytes : List Byte) (i : Nat) (mmu : MMU) (hmap : mmu.MapsFirstPage)
    (hpage : i + bytes.length ≤ 4096)
    (hfit : i + bytes.length ≤ mmu.physicalMemory.memory.length) :
    (CPU.copyToMemory i bytes).run mmu =
      .ok () { mmu with physicalMemory := ⟨overlay mmu.physicalMemory.memory i bytes⟩ } := by
  induction bytes generalizing i mmu with
  | nil =>
      have hself : overlay mmu.physicalMemory.memory i [] = mmu.physicalMemory.memory := by
        simp [overlay]
      rw [hself]
      rfl
  | cons byte bytes ih =>
      rw [List.length_cons] at hpage hfit
      have hi : (BitVec.ofNat 32 i).toNat = i := by
        rw [BitVec.toNat_ofNat]
        exact Nat.mod_eq_of_lt (by omega)
      have hlow : (BitVec.ofNat 32 i).toNat < 4096 := by omega
      have hreach : mmu.Reaches true (BitVec.ofNat 32 i) :=
        MMU.reaches_of_lt hmap true hlow (by omega)
      have hstore : (mmu.store (BitVec.ofNat 32 i) byte).physicalMemory.memory =
          mmu.physicalMemory.memory.set i byte := by
        rw [MMU.store_memory, hi]
      have hmap' : (mmu.store (BitVec.ofNat 32 i) byte).MapsFirstPage := hmap
      have hfit' : i + 1 + bytes.length ≤
          (mmu.store (BitVec.ofNat 32 i) byte).physicalMemory.memory.length := by
        rw [hstore, List.length_set]; omega
      rw [CPU.copyToMemory, run_bind_ok (MMU.run_write_of_reaches byte hreach),
        MMU.physical_of_lt hmap hlow, ih (i + 1) _ hmap' (by omega) hfit', hstore,
        overlay_set (by omega)]
      rfl

/-! ## the run -/

/-- Jump to self: the word that ends a program. -/
def endWord : Word := 0x0000006F

/-- The words of a program, its end included. -/
def programWords (is : List AluInstr) : List Word := is.map AluInstr.encode ++ [endWord]

/-- `ws` can be fetched, word for word, from word `k` of the address space on. -/
def MMU.Holds (mmu : MMU) (k : Nat) (ws : List Word) : Prop :=
  ∀ j w, ws[j]? = some w → mmu.readWord (BitVec.ofNat 32 (4 * (k + j))) = .ok w

theorem MMU.Holds.head {mmu : MMU} {k : Nat} {w : Word} {ws : List Word}
    (h : mmu.Holds k (w :: ws)) : mmu.readWord (BitVec.ofNat 32 (4 * k)) = .ok w := h 0 w rfl

theorem MMU.Holds.tail {mmu : MMU} {k : Nat} {w : Word} {ws : List Word}
    (h : mmu.Holds k (w :: ws)) : mmu.Holds (k + 1) ws := by
  intro j v hv
  have hword := h (j + 1) v hv
  rwa [show k + (j + 1) = k + 1 + j by omega] at hword

/-- The address of the next word. -/
theorem ofNat_word_succ (k : Nat) :
    BitVec.ofNat 32 (4 * k) + 4 = BitVec.ofNat 32 (4 * (k + 1)) := by
  rw [Nat.mul_succ, BitVec.ofNat_add]
  rfl

namespace CPU

theorem run_runCycle_ok {self : CPU} {p : Pipeline}
    (h : Pipeline.runCycle.run self.pipeline = .ok () p) :
    runCycle.run self = .ok () { self with pipeline := p } := by
  rw [runCycle, run_zoom, h]

theorem run_runCycle_error {self : CPU} {p : Pipeline} {e : Exception}
    (h : Pipeline.runCycle.run self.pipeline = .error e p) :
    runCycle.run self = .error e { self with pipeline := p } := by
  rw [runCycle, run_zoom, h]

/-- The cycle on the word that ends a program: it throws, past the word and
with nothing else changed. -/
theorem run_runCycle_end {self : CPU}
    (h : self.pipeline.mmu.readWord self.pipeline.registerBank.pc = .ok endWord) :
    ∃ self', runCycle.run self =
        .error (.endOfProgramException "End of program reached") self' ∧
      self'.pipeline.registerBank.x = self.pipeline.registerBank.x ∧
      self'.pipeline.registerBank.pc = self.pipeline.registerBank.pc + 4 ∧
      self'.pipeline.mmu = self.pipeline.mmu := by
  have hcycle : Core.cycle.run self.pipeline.core =
      .error (.endOfProgramException "End of program reached")
        (self.pipeline.core.advance.setBranch true
          (self.pipeline.core.advance.pc + getImmediateJ ⟨endWord⟩)) := by
    rw [Core.cycle_of_fetch (c := self.pipeline.core) h]
    exact Core.run_finish_jump_end _ (by decide) (by decide)
  obtain ⟨p, hrun, hcore⟩ := exists_runCycle_error hcycle
  have hbank := congrArg Core.registerBank hcore
  have hx := congrArg RegisterBank.x hbank
  have hpc := congrArg RegisterBank.pc hbank
  have hmmu := congrArg Core.mmu hcore
  exact ⟨_, run_runCycle_error hrun, hx, hpc, hmmu⟩

/-- **A straight-line program, run**: from its first word, the run goes through
its instructions in order, one a cycle, and ends at its last word. -/
theorem runLoop_program (is : List AluInstr) (k : Nat) (self : CPU)
    (hpc : self.pipeline.registerBank.pc = BitVec.ofNat 32 (4 * k))
    (hold : self.pipeline.mmu.Holds k (programWords is)) :
    ∃ self', (∀ fuel ≤ is.length, runLoop fuel self = none) ∧
      (∀ fuel, is.length < fuel → runLoop fuel self =
        some (.endOfProgramException "End of program reached", self')) ∧
      self'.pipeline.registerBank.x = Rv32i.exec is self.pipeline.registerBank.x ∧
      self'.pipeline.registerBank.pc = BitVec.ofNat 32 (4 * (k + is.length + 1)) ∧
      self'.pipeline.mmu = self.pipeline.mmu := by
  induction is generalizing k self with
  | nil =>
      have hfetch := hold.head
      rw [← hpc] at hfetch
      obtain ⟨self', hrun, hx, hpc', hmmu⟩ := run_runCycle_end hfetch
      refine ⟨self', fun fuel hf => ?_, fun fuel hf => ?_, hx, ?_, hmmu⟩
      · obtain rfl : fuel = 0 := Nat.le_zero.mp hf
        rfl
      · obtain ⟨fuel, rfl⟩ := Nat.exists_eq_succ_of_ne_zero (Nat.pos_iff_ne_zero.mp hf)
        rw [runLoop, hrun]
      · rw [hpc', hpc, ofNat_word_succ]
        rfl
  | cons i is ih =>
      have hfetch := hold.head
      rw [← hpc] at hfetch
      obtain ⟨p, hrun, hx, hpc', hmmu⟩ := exists_runCycle_alu hfetch
      have hcycle := run_runCycle_ok hrun
      obtain ⟨self', hbefore, hafter, hx', hpc'', hmmu'⟩ :=
        ih (k + 1) { self with pipeline := p } (by rw [hpc', hpc, ofNat_word_succ])
          (by rw [hmmu]; exact hold.tail)
      refine ⟨self', fun fuel hf => ?_, fun fuel hf => ?_, ?_, ?_, hmmu'.trans hmmu⟩
      · cases fuel with
        | zero => rfl
        | succ fuel =>
            rw [runLoop, hcycle]
            exact hbefore fuel (Nat.le_of_succ_le_succ hf)
      · cases fuel with
        | zero => exact absurd hf (Nat.not_lt_zero _)
        | succ fuel =>
            rw [runLoop, hcycle]
            exact hafter fuel (Nat.lt_of_succ_lt_succ hf)
      · rw [hx', hx]
        rfl
      · rw [hpc'', List.length_cons]
        congr 2
        omega

end CPU

/-! ## end to end -/

/-- The file of a program: its words, little-endian. -/
def programFile (is : List AluInstr) : List Byte := leBytes (programWords is)

theorem length_programFile (is : List AluInstr) :
    (programFile is).length = 4 * (is.length + 1) := by
  rw [programFile, length_leBytes, programWords, List.length_append, List.length_map]
  rfl

/-- A file laid over the start of a memory that maps the first page can be
fetched word for word. -/
theorem holds_overlay {mmu : MMU} (hmap : mmu.MapsFirstPage) (ws : List Word) (rest : List Byte)
    (hpage : 4 * ws.length ≤ 4096) (hmem : mmu.physicalMemory.memory = leBytes ws ++ rest) :
    mmu.Holds 0 ws := by
  intro j w hw
  have hj : j < ws.length := (List.getElem?_eq_some_iff.mp hw).1
  apply MMU.readWord_of_bytes
  intro k hk
  have haddr : (BitVec.ofNat 32 (4 * (0 + j)) + BitVec.ofNat 32 k).toNat = 4 * j + k := by
    rw [Nat.zero_add, ← BitVec.ofNat_add, BitVec.toNat_ofNat]
    exact Nat.mod_eq_of_lt (by omega)
  apply MMU.read_of_lt hmap (by omega)
  rw [haddr, hmem, List.getElem?_append_left (by rw [length_leBytes]; omega),
    getElem?_leBytes ws j hk, hw]
  rfl

theorem loadProgram_contents {self : CPU} {bytes : List Byte} {mmu : MMU}
    (h : (CPU.copyToMemory 0 bytes).run self.pipeline.mmu = .ok () mmu) :
    self.loadProgram (.contents bytes) = (.ok 0, { self with
      pipeline := { self.pipeline with mmu, registerBank := self.pipeline.registerBank.setPc 0 } }) := by
  rw [CPU.loadProgram, h]

/-- What loading a file that fits leaves of a fresh CPU. -/
theorem loadProgram_new {memorySize : Nat} (garbage : Uninitialized) {bytes : List Byte}
    (hpage : bytes.length ≤ 4096) (hfit : bytes.length ≤ memorySize) :
    ∃ self', (CPU.new memorySize garbage).loadProgram (.contents bytes) = (.ok 0, self') ∧
      self'.pipeline.registerBank = .new ∧ self'.pipeline.mmu.MapsFirstPage ∧
      self'.pipeline.mmu.physicalMemory.memory =
        bytes ++ List.replicate (memorySize - bytes.length) 0 := by
  have hmap : (CPU.new memorySize garbage).pipeline.mmu.MapsFirstPage := rfl
  have hmem : (CPU.new memorySize garbage).pipeline.mmu.physicalMemory.memory =
      List.replicate memorySize 0 := rfl
  have hlen : (CPU.new memorySize garbage).pipeline.mmu.physicalMemory.memory.length =
      memorySize := by
    rw [hmem, List.length_replicate]
  have hcopy := run_copyToMemory bytes 0 _ hmap (by omega) (by omega)
  refine ⟨_, loadProgram_contents hcopy, rfl, hmap, ?_⟩
  show overlay (CPU.new memorySize garbage).pipeline.mmu.physicalMemory.memory 0 bytes = _
  rw [hmem, overlay, List.take_zero, List.nil_append, Nat.zero_add, List.drop_replicate]

/-- **Program correctness**: a file of arithmetic instructions closed by a jump
to itself, no longer than the memory and the page, is loaded by a fresh CPU
and run in exactly one cycle an instruction and one for the jump, normally; the
registers are then those RV32I computes from zero, memory is the file followed
by zeros, and `pc` is past the jump. -/
theorem run_programFile (memorySize : Nat) (garbage : Uninitialized) (is : List AluInstr)
    (hfit : 4 * (is.length + 1) ≤ min memorySize 4096) :
    ∃ loaded self,
      (CPU.new memorySize garbage).loadProgram (.contents (programFile is)) = (.ok 0, loaded) ∧
      (∀ fuel ≤ is.length, loaded.run fuel = none) ∧
      (∀ fuel, is.length + 1 ≤ fuel → loaded.run fuel = some (.ok () self)) ∧
      self.pipeline.registerBank.x = Rv32i.exec is (fun _ => 0) ∧
      self.pipeline.mmu.physicalMemory.memory =
        programFile is ++ List.replicate (memorySize - (programFile is).length) 0 ∧
      self.pipeline.registerBank.pc = BitVec.ofNat 32 (4 * (is.length + 1)) := by
  have hlen := length_programFile is
  have hpage : (programFile is).length ≤ 4096 := by omega
  have hmemory : (programFile is).length ≤ memorySize := by omega
  obtain ⟨loaded, hload, hbank, hmap, hmem⟩ := loadProgram_new garbage hpage hmemory
  have hold : loaded.pipeline.mmu.Holds 0 (programWords is) :=
    holds_overlay hmap _ _ (by rw [← length_leBytes]; exact hpage) hmem
  have hpc : loaded.pipeline.registerBank.pc = BitVec.ofNat 32 (4 * 0) := by rw [hbank]; rfl
  have hzero : loaded.pipeline.registerBank.x = fun _ => 0 := by
    rw [hbank]
    funext r
    simp [RegisterBank.x, RegisterBank.new]
  obtain ⟨self, hbefore, hafter, hx, hpc', hmmu⟩ := CPU.runLoop_program is 0 loaded hpc hold
  refine ⟨loaded, self, hload, fun fuel hf => ?_, fun fuel hf => ?_, ?_, ?_, ?_⟩
  · rw [CPU.run, hbefore fuel hf]
  · rw [CPU.run, hafter fuel hf]
  · rw [hx, hzero]
  · rw [hmmu, hmem]
  · rw [hpc', Nat.zero_add]

/-- The two-instruction program of the test suite: 42 into `x1`, 42 + 58 into `x2`. -/
theorem run_programFile_two :
    ∃ loaded self,
      (CPU.new 1048576 ⟨7, 8, 9⟩).loadProgram
        (.contents (programFile [.imm .addi 1 0 42, .imm .addi 2 1 58])) = (.ok 0, loaded) ∧
      loaded.run 2 = none ∧ loaded.run 3 = some (.ok () self) ∧
      self.pipeline.registerBank.x 1 = 42 ∧ self.pipeline.registerBank.x 2 = 100 := by
  obtain ⟨loaded, self, hload, hbefore, hafter, hx, -, -⟩ :=
    run_programFile 1048576 ⟨7, 8, 9⟩ [.imm .addi 1 0 42, .imm .addi 2 1 58] (by decide)
  refine ⟨loaded, self, hload, hbefore 2 (by decide), hafter 3 (by decide), ?_, ?_⟩
  · rw [hx]; decide
  · rw [hx]; decide

end VirtuV
