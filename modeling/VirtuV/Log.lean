import VirtuV.Exceptions
import VirtuV.Trajectory

/-!
# VirtuV.Log

What the CPU prints.

The methods of the CPU write lines to the two output streams as they go.  Here
they are with their output: a method returns the lines it has written next to
what it returns and leaves.  Dropping the lines gives the methods without
(`runLogged_snd`, `loadProgramLogged_snd`, `readWordFromMemoryLogged_snd`), and
`run_prints` says what a run writes: a line a cycle, and one for how it ended.

`run` throws the same for every fault, but it prints the text of the one it
caught, so what is printed tells runs apart that `run` does not.
-/

namespace VirtuV

open Stateful

/-! ## plt -/

namespace Plt

inductive Stream where
  | cout
  | cerr
deriving DecidableEq, Repr

/-- A line of output, without the newline that ends it. -/
structure Line where
  stream : Stream
  text : String
deriving DecidableEq, Repr

inductive Level where
  | debug
  | info
  | error
deriving DecidableEq, Repr

def RESET : String := "\x1b[0m"
def RED : String := "\x1b[1;31m"
def GREEN : String := "\x1b[1;32m"
def CYAN : String := "\x1b[1;36m"

namespace Level

def stream : Level → Stream
  | debug => .cerr
  | info => .cout
  | error => .cerr

/-- The coloured tag a line begins with. -/
def tag : Level → String
  | debug => CYAN ++ "[DEBUG] " ++ RESET
  | info => GREEN ++ "[INFO] " ++ RESET
  | error => RED ++ "[ERROR] " ++ RESET

/-- A message as it is printed. -/
def line (level : Level) (msg : String) : Line := ⟨level.stream, level.tag ++ msg⟩

end Level

/-- Debug lines are printed only where they are enabled. -/
def debug (debugEnabled : Bool) (msg : String) : List Line :=
  if debugEnabled then [Level.debug.line msg] else []

def info (msg : String) : List Line := [Level.info.line msg]

def error (msg : String) : List Line := [Level.error.line msg]

/-- A level does not print two messages as one line. -/
theorem Level.line_inj {level : Level} {msg msg' : String} (h : level.line msg = level.line msg') :
    msg = msg' := by
  have htext := congrArg Line.text h
  exact String.append_right_inj _ |>.mp htext

end Plt

open Plt (Line)

/-- `what()`.  The text of an exception that carries none is left to the
implementation. -/
def Exception.what (unspecified : String) : Exception → String
  | pageFaultException msg => msg
  | accessViolationException msg => msg
  | outOfRange msg => msg
  | invalidArgument msg => msg
  | runtimeError msg => msg
  | endOfProgramException msg => msg
  | badVariantAccess => unspecified
  | lengthError => unspecified
  | badAlloc => unspecified
  | exception => unspecified

/-! ## the methods with their output -/

namespace CPU

/-- The copy loop, stopped by the first write that throws: the index and the
exception it reports, if it was stopped, and the MMU it leaves. -/
def copyReporting (i : Nat) : List Byte → MMU → Option (Nat × Exception) × MMU
  | [], mmu => (none, mmu)
  | byte :: buffer, mmu =>
    match (MMU.write (BitVec.ofNat 32 i) byte).run mmu with
    | .ok () mmu => copyReporting (i + 1) buffer mmu
    | .error e mmu => (some (i, e), mmu)

def loadProgramLogged (unspecified filepath : String) (file : ProgramFile) (self : CPU) :
    List Line × Except Exception Int × CPU :=
  match file with
  | .unopened =>
    (Plt.error ("Error: Unable to open program file: " ++ filepath), .ok (-1), self)
  | .oversized => ([], .error .lengthError, self)
  | .unallocated => ([], .error .badAlloc, self)
  | .unreadable =>
    (Plt.error ("Error: Unable to read program file: " ++ filepath), .ok (-1), self)
  | .contents buffer =>
    match copyReporting 0 buffer self.pipeline.mmu with
    | (none, mmu) =>
      let registerBank := self.pipeline.registerBank.setPc 0
      (Plt.info ("Program loaded successfully (" ++ toString buffer.length ++ " bytes)."),
        .ok 0, { self with pipeline := { self.pipeline with mmu, registerBank } })
    | (some (i, e), mmu) =>
      (Plt.error ("Error writing to physical memory at address " ++ toString i ++ ": " ++
        e.what unspecified), .ok (-1), { self with pipeline := { self.pipeline with mmu } })

/-- The loop of `run`: each iteration prints a line before its cycle. -/
def runLoopLogged (debugEnabled : Bool) : Nat → CPU → List Line × Option (Exception × CPU)
  | 0, _ => ([], none)
  | fuel + 1, self =>
    let lines := Plt.debug debugEnabled "INSTRUCTION"
    match runCycle.run self with
    | .ok () self =>
      let (rest, stopped) := runLoopLogged debugEnabled fuel self
      (lines ++ rest, stopped)
    | .error e self => (lines, some (e, self))

/-- What the handlers of `run` print of the exception they caught. -/
def lastLine (unspecified : String) : Exception → List Line
  | .endOfProgramException _ => Plt.info "CPU ended program, exiting simulation"
  | e => Plt.error ("CPU Exception: " ++ e.what unspecified)

def runLogged (debugEnabled : Bool) (unspecified : String) (fuel : Nat) (self : CPU) :
    List Line × Option (EStateM.Result Exception CPU Unit) :=
  match self.runLoopLogged debugEnabled fuel with
  | (lines, none) => (lines, none)
  | (lines, some (.endOfProgramException msg, self)) =>
    (lines ++ lastLine unspecified (.endOfProgramException msg), some (.ok () self))
  | (lines, some (e, self)) =>
    (lines ++ lastLine unspecified e, some (.error .exception self))

def readWordFromMemoryLogged (unspecified : String) (self : CPU) (address : Word) :
    List Line × Word :=
  match self.pipeline.mmu.readWord address with
  | .ok word => ([], word)
  | .error e =>
    (Plt.error ("Error reading from physical memory at address " ++ toString address.toNat ++
      ": " ++ e.what unspecified), -1)

/-! ## dropping the output -/

theorem run_copyToMemory_eq (i : Nat) (bytes : List Byte) (mmu : MMU) :
    (copyToMemory i bytes).run mmu = match copyReporting i bytes mmu with
      | (none, mmu') => .ok () mmu'
      | (some (_, e), mmu') => .error e mmu' := by
  induction bytes generalizing i mmu with
  | nil => rfl
  | cons byte bytes ih =>
      rw [copyToMemory, copyReporting]
      cases hwrite : (MMU.write (BitVec.ofNat 32 i) byte).run mmu with
      | ok a mmu' => rw [run_bind_ok hwrite, ih]
      | error e mmu' => rw [run_bind_error hwrite]

/-- Loading does the same whether it prints or not. -/
theorem loadProgramLogged_snd (unspecified filepath : String) (file : ProgramFile) (self : CPU) :
    (self.loadProgramLogged unspecified filepath file).2 = self.loadProgram file := by
  cases file with
  | unopened => rfl
  | oversized => rfl
  | unallocated => rfl
  | unreadable => rfl
  | contents buffer =>
      rw [loadProgramLogged, loadProgram, run_copyToMemory_eq]
      rcases copyReporting 0 buffer self.pipeline.mmu with ⟨_ | ⟨i, e⟩, mmu⟩ <;> rfl

/-- So does reading a word. -/
theorem readWordFromMemoryLogged_snd (unspecified : String) (self : CPU) (address : Word) :
    (self.readWordFromMemoryLogged unspecified address).2 = self.readWordFromMemory address := by
  rw [readWordFromMemoryLogged, readWordFromMemory]
  cases self.pipeline.mmu.readWord address <;> rfl

theorem runLoopLogged_snd (debugEnabled : Bool) (fuel : Nat) (self : CPU) :
    (self.runLoopLogged debugEnabled fuel).2 = runLoop fuel self := by
  induction fuel generalizing self with
  | zero => rfl
  | succ fuel ih =>
      rw [runLoopLogged, runLoop]
      cases runCycle.run self with
      | ok _ next => exact ih next
      | error e last => rfl

/-- And running. -/
theorem runLogged_snd (debugEnabled : Bool) (unspecified : String) (fuel : Nat) (self : CPU) :
    (self.runLogged debugEnabled unspecified fuel).2 = self.run fuel := by
  rw [runLogged, run, ← runLoopLogged_snd debugEnabled]
  rcases self.runLoopLogged debugEnabled fuel with ⟨lines, _ | ⟨e, last⟩⟩
  · rfl
  · cases e <;> rfl

/-! ## what a read prints -/

/-- A -1 that was read is told from one that answers a fault by what is
printed. -/
theorem Attainable.readWordFromMemoryLogged_eq_nil_iff {memorySize : Nat}
    {garbage : Uninitialized} {self : CPU} (h : Attainable memorySize garbage self)
    (unspecified : String) (address : Word) :
    (self.readWordFromMemoryLogged unspecified address).1 = [] ↔
      address.toNat + 4 ≤ loadable memorySize := by
  rw [← h.wordReadable_iff, MMU.wordReadable_iff, ← MMU.readWord_ok_iff_reaches,
    readWordFromMemoryLogged]
  cases self.pipeline.mmu.readWord address with
  | ok word => exact ⟨fun _ => ⟨word, rfl⟩, fun _ => rfl⟩
  | error e =>
      constructor
      · intro hnil
        contradiction
      · rintro ⟨word, hword⟩
        contradiction

/-! ## what a run prints -/

/-- As many cycles as the loop has begun, so many lines has it printed. -/
theorem runLoopLogged_fst (debugEnabled : Bool) {n fuel : Nat} {self self' : CPU} {e : Exception}
    (hcompletes : Completes runCycle n self)
    (hthrows : runCycle.run (after runCycle n self) = .error e self') (hn : n < fuel) :
    (self.runLoopLogged debugEnabled fuel).1 =
      (List.replicate (n + 1) (Plt.debug debugEnabled "INSTRUCTION")).flatten := by
  obtain ⟨fuel, rfl⟩ := Nat.exists_eq_add_one_of_ne_zero (Nat.ne_of_gt (Nat.zero_lt_of_lt hn))
  induction n generalizing fuel self with
  | zero =>
      rw [after_zero] at hthrows
      rw [runLoopLogged, hthrows]
      simp
  | succ n ih =>
      obtain ⟨⟨a, ha⟩, hrest⟩ := (completes_succ runCycle n self).mp hcompletes
      have hfuel : fuel ≠ 0 := by omega
      obtain ⟨fuel, rfl⟩ := Nat.exists_eq_add_one_of_ne_zero hfuel
      rw [after_succ'] at hthrows
      rw [runLoopLogged, eq_ok_of_outcome ha, List.replicate_succ, List.flatten_cons]
      exact congrArg _ (ih hrest hthrows fuel (by omega))

/-- So a run prints a line a cycle, and one for the exception that ended it. -/
theorem runLogged_fst (debugEnabled : Bool) (unspecified : String) {n fuel : Nat}
    {self self' : CPU} {e : Exception} (hcompletes : Completes runCycle n self)
    (hthrows : runCycle.run (after runCycle n self) = .error e self') (hn : n < fuel) :
    (self.runLogged debugEnabled unspecified fuel).1 =
      (List.replicate (n + 1) (Plt.debug debugEnabled "INSTRUCTION")).flatten ++
        lastLine unspecified e := by
  have hlines := runLoopLogged_fst debugEnabled hcompletes hthrows hn
  have hstopped : (self.runLoopLogged debugEnabled fuel).2 = some (e, self') := by
    rw [runLoopLogged_snd]
    exact (runLoop_eq_some_iff fuel self self' e).mpr ⟨n, hn, hcompletes, hthrows⟩
  rw [runLogged, ← hlines]
  generalize self.runLoopLogged debugEnabled fuel = ended at hstopped ⊢
  obtain ⟨lines, stopped⟩ := ended
  obtain rfl : stopped = some (e, self') := hstopped
  cases e <;> rfl

end CPU

/-! ## telling runs apart -/

namespace Exception

/-- No two exceptions of a cycle have the same text. -/
theorem what_inj {unspecified : String} {e e' : Exception} (he : e ∈ rejections ++ memoryFaults)
    (he' : e' ∈ rejections ++ memoryFaults) (h : e.what unspecified = e'.what unspecified) :
    e = e' := by
  have hspecified : ∀ e ∈ rejections ++ memoryFaults, e.what unspecified = e.what "" := by
    intro e he
    simp only [rejections, memoryFaults, List.cons_append, List.nil_append, List.mem_cons,
      List.not_mem_nil, or_false] at he
    rcases he with rfl | rfl | rfl | rfl | rfl | rfl | rfl | rfl | rfl | rfl <;> rfl
  have hdistinct : ∀ e ∈ rejections ++ memoryFaults, ∀ e' ∈ rejections ++ memoryFaults,
      e.what "" = e'.what "" → e = e' := by decide +kernel
  rw [hspecified e he, hspecified e' he'] at h
  exact hdistinct e he e' he' h

/-- Nor is one that ends a program printed like one that does not. -/
theorem lastLine_inj {unspecified : String} {e e' : Exception}
    (he : e ∈ rejections ++ memoryFaults) (he' : e' ∈ rejections ++ memoryFaults)
    (h : CPU.lastLine unspecified e = CPU.lastLine unspecified e') : e = e' := by
  have hline : ∀ e : Exception, ¬ e.IsEndOfProgram → CPU.lastLine unspecified e =
      Plt.error ("CPU Exception: " ++ e.what unspecified) := by
    intro e hend
    cases e <;> first | rfl | exact absurd ⟨_, rfl⟩ hend
  have hends : ∀ e ∈ rejections ++ memoryFaults, e.IsEndOfProgram →
      e = .endOfProgramException "End of program reached" := by
    rintro e he ⟨msg, rfl⟩
    simpa [rejections, memoryFaults, noEntry, invalidEntry, notWritable, notReadable,
      writeOutOfRange, readOutOfRange] using he
  by_cases hend : e.IsEndOfProgram <;> by_cases hend' : e'.IsEndOfProgram
  · rw [hends e he hend, hends e' he' hend']
  · -- the end of a program is printed to `cout`, everything else to `cerr`
    rw [hends e he hend, hline e' hend'] at h
    have hstream : Plt.Stream.cout = .cerr :=
      congrArg Line.stream (List.head_eq_of_cons_eq h)
    contradiction
  · rw [hline e hend, hends e' he' hend'] at h
    have hstream : Plt.Stream.cerr = .cout :=
      congrArg Line.stream (List.head_eq_of_cons_eq h)
    contradiction
  · rw [hline e hend, hline e' hend'] at h
    have hmsg := Plt.Level.line_inj (List.head_eq_of_cons_eq h)
    exact what_inj he he' ((String.append_right_inj _).mp hmsg)

end Exception

theorem CPU.error_mem {self self' : CPU} {e : Exception}
    (h : runCycle.run self = .error e self') :
    e ∈ Exception.rejections ++ Exception.memoryFaults := by
  apply Pipeline.error_mem (s := self.pipeline)
  rw [← CPU.outcome_runCycle, h, outcome_error]

/-- **What a run prints**: a run returns what it returns without printing; it
prints a debug line for every cycle it begins, and then the text of the
exception that ended it.  Two runs with debug lines enabled that print the same
have been through the same number of cycles and were ended by the same
exception, be it one that `run` hides. -/
theorem run_prints (debugEnabled : Bool) (unspecified : String) (self other : CPU) :
    (∀ fuel, (self.runLogged debugEnabled unspecified fuel).2 = self.run fuel) ∧
    (∀ n e self' fuel, Completes CPU.runCycle n self →
      CPU.runCycle.run (after CPU.runCycle n self) = .error e self' → n < fuel →
      (self.runLogged debugEnabled unspecified fuel).1 =
        (List.replicate (n + 1) (Plt.debug debugEnabled "INSTRUCTION")).flatten ++
          CPU.lastLine unspecified e) ∧
    (∀ n e self' fuel m e' other' fuel', Completes CPU.runCycle n self →
      CPU.runCycle.run (after CPU.runCycle n self) = .error e self' → n < fuel →
      Completes CPU.runCycle m other →
      CPU.runCycle.run (after CPU.runCycle m other) = .error e' other' → m < fuel' →
      (self.runLogged true unspecified fuel).1 = (other.runLogged true unspecified fuel').1 →
      n = m ∧ e = e') := by
  refine ⟨self.runLogged_snd debugEnabled unspecified,
    fun n e self' fuel hall hlast hn => CPU.runLogged_fst debugEnabled unspecified hall hlast hn,
    fun n e self' fuel m e' other' fuel' hall hlast hn hall' hlast' hm hprints => ?_⟩
  rw [CPU.runLogged_fst true unspecified hall hlast hn,
    CPU.runLogged_fst true unspecified hall' hlast' hm] at hprints
  have hone : ∀ e : Exception, (CPU.lastLine unspecified e).length = 1 := by
    intro e
    cases e <;> rfl
  have hdebug : Plt.debug true "INSTRUCTION" = [Plt.Level.debug.line "INSTRUCTION"] := rfl
  have hlength := congrArg List.length hprints
  rw [hdebug, List.flatten_replicate_singleton, List.flatten_replicate_singleton,
    List.length_append, List.length_append, List.length_replicate, List.length_replicate, hone,
    hone] at hlength
  obtain rfl : n = m := by omega
  exact ⟨rfl, Exception.lastLine_inj (CPU.error_mem hlast) (CPU.error_mem hlast')
    (List.append_cancel_left hprints)⟩

end VirtuV
