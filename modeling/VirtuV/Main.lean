import VirtuV.Frame
import VirtuV.Log

/-!
# VirtuV.Main

The program `virtuv`: what it prints and how its process ends.

It loads the file it is given on a fresh CPU of one megabyte and runs it.  That
always comes to an end (`main_ends`); and for a file without stores, whose
memory no cycle changes, everything the process does can be read off the words
of the file, one after the other up to the first that is rejected
(`main_storeless`).
-/

namespace VirtuV

open Stateful
open Bits
open Plt (Line Level)
open Rv32i (opcode)

/-! ## main -/

/-- How a process ends: `main` returns, or an exception nobody catches
terminates it. -/
inductive Exit where
  | returned (status : Int)
  | uncaught (e : Exception)
deriving DecidableEq, Repr

def usage : Line := ⟨.cerr, "Usage: virtuv <program[.bin]>"⟩

def failed (path : String) : Line := ⟨.cerr, "Failed to load program: " ++ path⟩

/-- `main`, given its arguments and what is found at a path: what it prints,
and how it ends unless its run is cut off after `fuel` cycles. -/
def main (debugEnabled : Bool) (unspecified : String) (files : String → ProgramFile)
    (garbage : Uninitialized) (fuel : Nat) (argv : List String) : List Line × Option Exit :=
  let cpu := CPU.new (1024 * 1024) garbage
  match argv with
  | _ :: path :: _ =>
    match cpu.loadProgramLogged unspecified path (files path) with
    | (lines, .error e, _) => (lines, some (.uncaught e))
    | (lines, .ok status, cpu) =>
      if status ≠ 0 then
        (lines ++ [failed path], some (.returned 1))
      else
        match cpu.runLogged debugEnabled unspecified fuel with
        | (rest, none) => (lines ++ rest, none)
        | (rest, some (.ok () _)) => (lines ++ rest, some (.returned 0))
        | (rest, some (.error e _)) => (lines ++ rest, some (.uncaught e))
  | _ => ([usage], some (.returned 1))

/-! ## loading -/

namespace CPU

theorem copyReporting_append (as bs : List Byte) (i : Nat) (mmu : MMU) :
    copyReporting i (as ++ bs) mmu = match copyReporting i as mmu with
      | (none, mmu') => copyReporting (i + as.length) bs mmu'
      | stopped => stopped := by
  induction as generalizing i mmu with
  | nil => rfl
  | cons a as ih =>
      rw [List.cons_append, copyReporting, copyReporting]
      cases (MMU.write (BitVec.ofNat 32 i) a).run mmu with
      | ok _ mmu' =>
          dsimp only
          rw [ih, List.length_cons, Nat.add_right_comm, Nat.add_assoc]
      | error e mmu' => rfl

theorem copyReporting_of_ok {i : Nat} {bytes : List Byte} {mmu mmu' : MMU}
    (h : (copyToMemory i bytes).run mmu = .ok () mmu') :
    copyReporting i bytes mmu = (none, mmu') := by
  rw [run_copyToMemory_eq] at h
  rcases hcopy : copyReporting i bytes mmu with ⟨_ | ⟨j, e⟩, m⟩
  · rw [hcopy] at h
    obtain ⟨-, rfl⟩ := EStateM.Result.ok.inj h
    rfl
  · rw [hcopy] at h
    contradiction

/-- The copy loop stops at the first byte that cannot be written. -/
theorem copyReporting_stops {as : List Byte} {b : Byte} (bs : List Byte) {i j : Nat}
    {mmu mmu' : MMU} {e : Exception} (has : (copyToMemory i as).run mmu = .ok () mmu')
    (hj : i + as.length = j) (hb : (MMU.write (BitVec.ofNat 32 j) b).run mmu' = .error e mmu') :
    copyReporting i (as ++ b :: bs) mmu = (some (j, e), mmu') := by
  rw [copyReporting_append, copyReporting_of_ok has]
  dsimp only
  rw [hj, copyReporting, hb]

namespace Attainable

variable {memorySize : Nat} {garbage : Uninitialized} {self : CPU} {bytes : List Byte}

/-- A file that fits is reported loaded. -/
theorem loadProgramLogged_short (h : Attainable memorySize garbage self)
    (hshort : bytes.length ≤ loadable memorySize) (unspecified path : String) :
    self.loadProgramLogged unspecified path (.contents bytes) =
      (Plt.info ("Program loaded successfully (" ++ toString bytes.length ++ " bytes)."),
        self.loadProgram (.contents bytes)) := by
  have hsnd := self.loadProgramLogged_snd unspecified path (.contents bytes)
  have hpage : loadable memorySize ≤ 4096 := Nat.min_le_right _ _
  have hmemory : loadable memorySize ≤ memorySize := Nat.min_le_left _ _
  have hcopy := copyReporting_of_ok (run_copyToMemory bytes 0 _ h.mapsFirstPage
    (by omega) (by rw [h.length_memory]; omega))
  rw [← hsnd, loadProgramLogged, hcopy]

/-- Of a file that does not, the first address that cannot be written is
reported, with the reason. -/
theorem loadProgramLogged_long (h : Attainable memorySize garbage self)
    (hlong : loadable memorySize < bytes.length) (unspecified path : String) :
    ∃ e, self.pipeline.mmu.guard true (BitVec.ofNat 32 (loadable memorySize)) = some e ∧
      self.loadProgramLogged unspecified path (.contents bytes) =
        (Plt.error ("Error writing to physical memory at address " ++
          toString (loadable memorySize) ++ ": " ++ e.what unspecified),
          self.loadProgram (.contents bytes)) := by
  have hpage : loadable memorySize ≤ 4096 := Nat.min_le_right _ _
  have hmemory : loadable memorySize ≤ memorySize := Nat.min_le_left _ _
  have haddr : (BitVec.ofNat 32 (loadable memorySize)).toNat = loadable memorySize := by
    rw [BitVec.toNat_ofNat]
    exact Nat.mod_eq_of_lt (by omega)
  have htake : (bytes.take (loadable memorySize)).length = loadable memorySize :=
    List.length_take_of_le (Nat.le_of_lt hlong)
  have hrun := run_copyToMemory (bytes.take (loadable memorySize)) 0 _ h.mapsFirstPage
    (by omega) (by rw [h.length_memory]; omega)
  have hlayout := MMU.keeps_copyToMemory_of_write MMU.keeps_layout 0
    (bytes.take (loadable memorySize)) self.pipeline.mmu
  rw [hrun, final_ok] at hlayout
  cases hg : self.pipeline.mmu.guard true (BitVec.ofNat 32 (loadable memorySize)) with
  | none =>
      have hreach := (MMU.guard_eq_none_iff _ _ _).mp hg
      rw [h.sameLayout.reaches_iff, reaches_new_iff, haddr] at hreach
      exact absurd hreach (Nat.lt_irrefl _)
  | some e =>
      have hwrite := MMU.run_write_of_guard_some (bytes[loadable memorySize])
        ((congrFun (congrFun hlayout.guard_eq true) _).trans hg)
      have hsplit : bytes = bytes.take (loadable memorySize) ++
          bytes[loadable memorySize] :: bytes.drop (loadable memorySize + 1) := by
        rw [← List.drop_eq_getElem_cons hlong, List.take_append_drop]
      have hsnd := self.loadProgramLogged_snd unspecified path (.contents bytes)
      have hall := copyReporting_stops (bytes.drop (loadable memorySize + 1)) hrun
        (by rw [htake, Nat.zero_add]) hwrite
      rw [← hsplit] at hall
      refine ⟨e, rfl, ?_⟩
      rw [← hsnd, loadProgramLogged, hall]

end Attainable

end CPU

/-! ## every run of the process ends -/

/-- How the process ends when an exception ended its run. -/
def exitOf : Exception → Exit
  | .endOfProgramException _ => .returned 0
  | _ => .uncaught .exception

/-- The CPU of `main` once it has loaded a file of these bytes. -/
def loadedCPU (garbage : Uninitialized) (bytes : List Byte) : CPU :=
  CPU.boot (1024 * 1024) garbage bytes

theorem attainable_loadedCPU (garbage : Uninitialized) (bytes : List Byte) :
    CPU.Attainable (1024 * 1024) garbage (loadedCPU garbage bytes) :=
  .loadProgram (.contents bytes) .new

/-- What the process prints and how it ends, where its run is ended by the
exception `e` of cycle `n`. -/
def ending (debugEnabled : Bool) (unspecified : String) (bytes : List Byte) (n : Nat)
    (e : Exception) : List Line × Option Exit :=
  (Plt.info ("Program loaded successfully (" ++ toString bytes.length ++ " bytes).") ++
    (List.replicate (n + 1) (Plt.debug debugEnabled "INSTRUCTION")).flatten ++
    CPU.lastLine unspecified e, some (exitOf e))

section Ending

variable (debugEnabled : Bool) (unspecified : String) (files : String → ProgramFile)
  (garbage : Uninitialized) {fuel n : Nat} {argv0 path : String} {rest : List String}
  {bytes : List Byte} {e : Exception} {self' : CPU}

/-- A file that fits the page is run on the CPU it was loaded on. -/
theorem main_of_throws (hfile : files path = .contents bytes) (hpage : bytes.length ≤ 4096)
    (hcompletes : Completes CPU.runCycle n (loadedCPU garbage bytes))
    (hthrows : CPU.runCycle.run (after CPU.runCycle n (loadedCPU garbage bytes)) = .error e self')
    (hn : n < fuel) :
    main debugEnabled unspecified files garbage fuel (argv0 :: path :: rest) =
      ending debugEnabled unspecified bytes n e := by
  have hnew : CPU.Attainable (1024 * 1024) garbage (.new (1024 * 1024) garbage) := .new
  have hshort : bytes.length ≤ loadable (1024 * 1024) := Nat.le_min.mpr ⟨by omega, hpage⟩
  have hload := hnew.loadProgramLogged_short hshort unspecified path
  have hstatus := (hnew.status_eq_zero_iff).mpr hshort
  have hpair : (CPU.new (1024 * 1024) garbage).loadProgram (.contents bytes) =
      (.ok 0, loadedCPU garbage bytes) := Prod.ext hstatus rfl
  have hprinted := CPU.runLogged_fst debugEnabled unspecified hcompletes hthrows hn
  have hreturned := CPU.runLogged_snd debugEnabled unspecified fuel (loadedCPU garbage bytes)
  have hloop := (CPU.runLoop_eq_some_iff fuel _ _ _).mpr ⟨n, hn, hcompletes, hthrows⟩
  rw [CPU.run, hloop] at hreturned
  rw [main, hfile, hload, hpair]
  dsimp only
  rw [if_neg (by decide), ending, List.append_assoc, ← hprinted]
  generalize (loadedCPU garbage bytes).runLogged debugEnabled unspecified fuel = ended
    at hreturned ⊢
  obtain ⟨lines, result⟩ := ended
  cases e <;> obtain rfl := hreturned <;> rfl

end Ending

/-- **The process**: with no argument it prints its usage and returns 1.  Where
there is no buffer for a file, it prints nothing and dies of the exception of
the allocation.  A file that cannot be opened or read, or is longer than a
page, is reported and the process returns 1.  Any other file is run, and the run
ends within 1025 cycles: the process prints a line for each and the text of the
exception that ended it, and returns 0 if that was the end of the program; any
other is thrown as a bare `std::exception` that nothing catches. -/
theorem main_ends (debugEnabled : Bool) (unspecified : String) (files : String → ProgramFile)
    (garbage : Uninitialized) (argv : List String) :
    (argv.length < 2 → ∀ fuel,
      main debugEnabled unspecified files garbage fuel argv = ([usage], some (.returned 1))) ∧
    (∀ argv0 path rest, argv = argv0 :: path :: rest →
      (files path = .unopened → ∀ fuel, main debugEnabled unspecified files garbage fuel argv =
        ([Level.error.line ("Error: Unable to open program file: " ++ path), failed path],
          some (.returned 1))) ∧
      (files path = .oversized → ∀ fuel, main debugEnabled unspecified files garbage fuel argv =
        ([], some (.uncaught .lengthError))) ∧
      (files path = .unallocated → ∀ fuel, main debugEnabled unspecified files garbage fuel argv =
        ([], some (.uncaught .badAlloc))) ∧
      (files path = .unreadable → ∀ fuel, main debugEnabled unspecified files garbage fuel argv =
        ([Level.error.line ("Error: Unable to read program file: " ++ path), failed path],
          some (.returned 1))) ∧
      (∀ bytes, files path = .contents bytes → 4096 < bytes.length → ∀ fuel,
        main debugEnabled unspecified files garbage fuel argv =
          ([Level.error.line ("Error writing to physical memory at address 4096: " ++
            "PageTable::get_entry - No entry for virtual address"), failed path],
            some (.returned 1))) ∧
      (∀ bytes, files path = .contents bytes → bytes.length ≤ 4096 →
        ∃ n ≤ 1024, ∃ e ∈ Exception.noEntry :: Exception.rejections,
          Completes CPU.runCycle n (loadedCPU garbage bytes) ∧
          outcome (CPU.runCycle.run (after CPU.runCycle n (loadedCPU garbage bytes))) = .error e ∧
          ∀ fuel, n < fuel → main debugEnabled unspecified files garbage fuel argv =
            ending debugEnabled unspecified bytes n e)) := by
  refine ⟨fun hargs fuel => ?_, ?_⟩
  · match argv, hargs with
    | [], _ => rfl
    | [_], _ => rfl
  rintro argv0 path rest rfl
  refine ⟨fun hfile fuel => ?_, fun hfile fuel => ?_, fun hfile fuel => ?_,
    fun hfile fuel => ?_, fun bytes hfile hlong fuel => ?_, fun bytes hfile hpage => ?_⟩
  · rw [main, hfile]
    rfl
  · rw [main, hfile]
    rfl
  · rw [main, hfile]
    rfl
  · rw [main, hfile]
    rfl
  · have hnew : CPU.Attainable (1024 * 1024) garbage (.new (1024 * 1024) garbage) := .new
    have hloadable : loadable (1024 * 1024) = 4096 := rfl
    obtain ⟨e, hg, hload⟩ := hnew.loadProgramLogged_long (by rw [hloadable]; exact hlong)
      unspecified path
    rw [main, hfile, hload, hnew.loadProgram_long (by rw [hloadable]; exact hlong)]
    rw [hloadable] at hg
    rcases hnew.guard_cases hg with ⟨-, rfl⟩ | ⟨hlow, -, -⟩
    · rfl
    · exact absurd hlow (by decide)
  · have hcpu := attainable_loadedCPU garbage bytes
    obtain ⟨n, hn, hcompletes, e, self', hthrows⟩ := hcpu.exists_throw
    have hout : outcome (CPU.runCycle.run (after CPU.runCycle n (loadedCPU garbage bytes))) =
        .error e := by rw [hthrows, outcome_error]
    have hloadable : loadable (1024 * 1024) = 4096 := rfl
    rw [hloadable] at hn
    refine ⟨n, by omega, e, ?_, hcompletes, hout, fun fuel hfuel =>
      main_of_throws debugEnabled unspecified files garbage hfile hpage hcompletes hthrows hfuel⟩
    rcases (hcpu.cycles n).error_cases hout with hrej | rfl | ⟨hsmall, -⟩
    · exact List.mem_cons_of_mem _ hrej
    · exact List.mem_cons_self
    · exact absurd hsmall (by decide)

/-! ## files without stores -/

/-- The word at index `k` of a file, padded with zeros. -/
def fileWord (bytes : List Byte) (k : Nat) : Word :=
  leWord (bytes.getD (4 * k) 0) (bytes.getD (4 * k + 1) 0) (bytes.getD (4 * k + 2) 0)
    (bytes.getD (4 * k + 3) 0)

/-- The words of the page a file has been loaded into. -/
def pageWords (bytes : List Byte) : List Word := (List.range 1024).map (fileWord bytes)

/-- How many words come before the first that is rejected, and what it is
rejected with; beyond the last word there is no page. -/
def scan : List Word → Nat × Exception
  | [] => (0, .noEntry)
  | w :: ws =>
    match rejection w with
    | some e => (0, e)
    | none => ((scan ws).1 + 1, (scan ws).2)

/-- **A run without stores**: through words that can be fetched and none of
which is a store, up to an address that has no entry, a run goes as the scan
says. -/
theorem CPU.run_scan {self : CPU} {k : Nat} {ws : List Word}
    (hpc : self.pipeline.registerBank.pc = BitVec.ofNat 32 (4 * k))
    (hold : self.pipeline.mmu.Holds k ws) (hstore : ∀ w ∈ ws, opcode w ≠ 0x23)
    (hend : self.pipeline.mmu.readWord (BitVec.ofNat 32 (4 * (k + ws.length))) = .error .noEntry) :
    Completes runCycle (scan ws).1 self ∧
      ∃ self', runCycle.run (after runCycle (scan ws).1 self) = .error (scan ws).2 self' := by
  induction ws generalizing k self with
  | nil =>
      have hread : self.pipeline.mmu.readWord self.pipeline.registerBank.pc = .error .noEntry := by
        rw [hpc]
        exact hend
      obtain ⟨p, hrun, -⟩ := Pipeline.runCycle_of_fetch_error hread
      exact ⟨fun j hj => absurd hj (Nat.not_lt_zero j), _, run_runCycle_error hrun⟩
  | cons w ws ih =>
      have hfetch := hold.head
      rw [← hpc] at hfetch
      have hnot := hstore w List.mem_cons_self
      have hout := Pipeline.outcome_runCycle_of_fetch hfetch
      rw [Core.outcome_finish_of_not_store hnot] at hout
      cases hrej : rejection w with
      | some e =>
          simp only [hrej] at hout
          rw [scan, hrej]
          exact ⟨fun j hj => absurd hj (Nat.not_lt_zero j), _,
            run_runCycle_error (eq_error_of_outcome hout)⟩
      | none =>
          simp only [hrej] at hout
          have hnext : final (runCycle.run self) =
              { self with pipeline := final (Pipeline.runCycle.run self.pipeline) } := by
            rw [runCycle, final_zoom]
          have hmmu : (final (runCycle.run self)).pipeline.mmu = self.pipeline.mmu := by
            rw [hnext, Pipeline.mmu_runCycle_of_not_store hfetch hnot]
          have hpc' : (final (runCycle.run self)).pipeline.registerBank.pc =
              BitVec.ofNat 32 (4 * (k + 1)) := by
            rw [hnext, Pipeline.pc_runCycle_of_fetch hfetch, hpc, ofNat_word_succ]
          have hlast : k + 1 + ws.length = k + (w :: ws).length := by
            rw [List.length_cons]
            omega
          obtain ⟨hall, hthrows⟩ := ih hpc' (by rw [hmmu]; exact hold.tail)
            (fun v hv => hstore v (List.mem_cons_of_mem w hv)) (by rw [hmmu, hlast]; exact hend)
          rw [scan, hrej]
          dsimp only
          refine ⟨(completes_succ _ _ _).mpr ⟨⟨(), ?_⟩, hall⟩, ?_⟩
          · rw [outcome_runCycle, hout]
          · rw [after_succ']
            exact hthrows

section Loaded

variable (garbage : Uninitialized) {bytes : List Byte}

/-- The loaded CPU, spelled out. -/
theorem loadedCPU_eq (hpage : bytes.length ≤ 4096) :
    (loadedCPU garbage bytes).pipeline.registerBank = RegisterBank.new.setPc 0 ∧
    (loadedCPU garbage bytes).pipeline.mmu.physicalMemory.memory =
      overlay (List.replicate (1024 * 1024) 0) 0 bytes := by
  have hnew : CPU.Attainable (1024 * 1024) garbage (.new (1024 * 1024) garbage) := .new
  have hload := hnew.loadProgram_short (Nat.le_min.mpr ⟨by omega, hpage⟩)
  have hcpu := congrArg (·.2.pipeline) hload
  exact ⟨congrArg Pipeline.registerBank hcpu,
    congrArg (·.mmu.physicalMemory.memory) hcpu⟩

/-- Its page holds the file, padded with zeros. -/
theorem getElem?_loadedCPU (hpage : bytes.length ≤ 4096) {i : Nat} (hi : i < 4096) :
    (loadedCPU garbage bytes).pipeline.mmu.physicalMemory.memory[i]? =
      some (bytes.getD i 0) := by
  rw [(loadedCPU_eq garbage hpage).2, getElem?_overlay_zero]
  by_cases hlen : i < bytes.length
  · rw [if_pos hlen, List.getD_eq_getElem?_getD, List.getElem?_eq_getElem hlen, Option.getD_some]
  · have hsize : i < 1024 * 1024 := by omega
    rw [if_neg hlen, List.getElem?_replicate_of_lt hsize, List.getD_eq_getElem?_getD,
      List.getElem?_eq_none (Nat.le_of_not_lt hlen), Option.getD_none]

theorem holds_loadedCPU (hpage : bytes.length ≤ 4096) :
    (loadedCPU garbage bytes).pipeline.mmu.Holds 0 (pageWords bytes) := by
  intro j w hw
  have hj : j < 1024 := by
    have hlt := (List.getElem?_eq_some_iff.mp hw).1
    rwa [pageWords, List.length_map, List.length_range] at hlt
  obtain rfl : fileWord bytes j = w := by
    rw [pageWords, List.getElem?_map, List.getElem?_range hj] at hw
    exact Option.some.inj hw
  apply MMU.readWord_of_bytes
  intro k hk
  have haddr : (BitVec.ofNat 32 (4 * (0 + j)) + BitVec.ofNat 32 k).toNat = 4 * j + k := by
    rw [Nat.zero_add, ← BitVec.ofNat_add, BitVec.toNat_ofNat]
    exact Nat.mod_eq_of_lt (by omega)
  have hbyte : leByte (fileWord bytes j) k = bytes.getD (4 * j + k) 0 := by
    obtain ⟨h0, h1, h2, h3⟩ := leByte_leWord (bytes.getD (4 * j) 0) (bytes.getD (4 * j + 1) 0)
      (bytes.getD (4 * j + 2) 0) (bytes.getD (4 * j + 3) 0)
    match k, hk with
    | 0, _ => exact h0
    | 1, _ => exact h1
    | 2, _ => exact h2
    | 3, _ => exact h3
  rw [hbyte]
  apply MMU.read_of_lt (attainable_loadedCPU garbage bytes).mapsFirstPage (by omega)
  rw [haddr]
  exact getElem?_loadedCPU garbage hpage (by omega)

/-- Beyond the page no word can be fetched, for lack of an entry. -/
theorem readWord_beyond : (loadedCPU garbage bytes).pipeline.mmu.readWord 4096 =
    .error .noEntry := by
  have hcpu := attainable_loadedCPU garbage bytes
  have hnot : ¬ (loadedCPU garbage bytes).pipeline.mmu.Reaches false 4096 := by
    rw [hcpu.sameLayout.reaches_iff, reaches_new_iff]
    decide
  cases hg : (loadedCPU garbage bytes).pipeline.mmu.guard false 4096 with
  | none => exact absurd ((MMU.guard_eq_none_iff _ _ _).mp hg) hnot
  | some e =>
      rcases hcpu.guard_cases hg with ⟨-, rfl⟩ | ⟨hlow, -, -⟩
      · rw [MMU.readWord, MMU.read_of_guard_some hg]
        rfl
      · exact absurd hlow (by decide)

end Loaded

/-- **Files without stores**: of a file that fits the page and has no store
among its words, padding included, everything the process prints and its exit
status are those of the scan through these words. -/
theorem main_storeless (debugEnabled : Bool) (unspecified : String)
    (files : String → ProgramFile) (garbage : Uninitialized) (argv0 path : String)
    (rest : List String) (bytes : List Byte) (hfile : files path = .contents bytes)
    (hpage : bytes.length ≤ 4096) (hstore : ∀ w ∈ pageWords bytes, opcode w ≠ 0x23) (fuel : Nat)
    (hfuel : (scan (pageWords bytes)).1 < fuel) :
    main debugEnabled unspecified files garbage fuel (argv0 :: path :: rest) =
      ending debugEnabled unspecified bytes (scan (pageWords bytes)).1
        (scan (pageWords bytes)).2 := by
  have hpc : (loadedCPU garbage bytes).pipeline.registerBank.pc = BitVec.ofNat 32 (4 * 0) := by
    rw [(loadedCPU_eq garbage hpage).1]
    rfl
  have hlength : BitVec.ofNat 32 (4 * (0 + (pageWords bytes).length)) = 4096 := by
    rw [pageWords, List.length_map, List.length_range]
    rfl
  obtain ⟨hcompletes, self', hthrows⟩ := CPU.run_scan hpc (holds_loadedCPU garbage hpage) hstore
    (by rw [hlength]; exact readWord_beyond garbage)
  exact main_of_throws debugEnabled unspecified files garbage hfile hpage hcompletes hthrows hfuel

/-- The words of a file that consists of words, and then zeros. -/
theorem pageWords_leBytes {ws : List Word} (h : ws.length ≤ 1024) :
    pageWords (leBytes ws) = ws ++ List.replicate (1024 - ws.length) 0 := by
  have hlength : (pageWords (leBytes ws)).length = 1024 := by
    rw [pageWords, List.length_map, List.length_range]
  apply List.ext_getElem
  · rw [hlength, List.length_append, List.length_replicate]
    omega
  intro j hj hj'
  have hbyte : ∀ k < 4, (leBytes ws).getD (4 * j + k) 0 = (ws[j]?.map (leByte · k)).getD 0 := by
    intro k hk
    rw [List.getD_eq_getElem?_getD, getElem?_leBytes ws j hk]
  have h0 := hbyte 0 (by decide)
  rw [Nat.add_zero] at h0
  simp only [pageWords, List.getElem_map, List.getElem_range, fileWord, h0, hbyte 1 (by decide),
    hbyte 2 (by decide), hbyte 3 (by decide)]
  by_cases hin : j < ws.length
  · rw [List.getElem_append_left hin, List.getElem?_eq_getElem hin]
    exact leWord_leByte ws[j]
  · rw [List.getElem_append_right (Nat.le_of_not_lt hin), List.getElem_replicate,
      List.getElem?_eq_none (Nat.le_of_not_lt hin)]
    decide

/-- The file of the two-instruction program of the test suite: two words are
executed, and the third ends it. -/
theorem main_storeless_two :
    main false "" (fun _ => .contents (programFile [.imm .addi 1 0 42, .imm .addi 2 1 58]))
      ⟨7, 8, 9⟩ 3 ["virtuv", "two.bin"] =
      ([Level.info.line "Program loaded successfully (12 bytes).",
        Level.info.line "CPU ended program, exiting simulation"], some (.returned 0)) := by
  have hwords : pageWords (programFile [.imm .addi 1 0 42, .imm .addi 2 1 58]) =
      0x02A00093 :: 0x03A08113 :: 0x0000006F :: List.replicate 1021 0 :=
    pageWords_leBytes (by decide)
  have hscan : scan (0x02A00093 :: 0x03A08113 :: 0x0000006F :: List.replicate 1021 0) =
      (2, .endOfProgramException "End of program reached") := rfl
  have hstore : ∀ w ∈ (0x02A00093 :: 0x03A08113 :: 0x0000006F :: List.replicate 1021 0 : List Word),
      opcode w ≠ 0x23 := by
    simp only [List.forall_mem_cons]
    refine ⟨by decide, by decide, by decide, fun w hw => ?_⟩
    rw [List.eq_of_mem_replicate hw]
    decide
  rw [← hwords] at hscan hstore
  rw [main_storeless false "" _ ⟨7, 8, 9⟩ "virtuv" "two.bin" [] _ rfl (by decide) hstore 3
    (by rw [hscan]; decide), hscan]
  decide +kernel

end VirtuV
