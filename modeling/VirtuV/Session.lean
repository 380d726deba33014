import VirtuV.MemorySystem
import VirtuV.Trajectory

/-!
# VirtuV.Session

The CPU as its host has it: calls of its methods in any order, and what each of
them returns or throws.

* **sessions** — a list of calls made one after the other, and the replies;
* **every session ends** — no call blocks, and each is answered in its kind;
* **a larger memory** — the same session, its loads and runs successful, gets
  the same replies from a CPU with more memory;
* **programs** — programs loaded and run one after the other are one program;
* **preparation** — the registers and the memory a host can set up.
-/

namespace VirtuV

open Stateful
open Bits
open Rv32i (AluInstr Registers)

namespace CPU

/-! ## sessions -/

/-- The methods of a CPU, with their arguments. -/
inductive Call where
  | loadProgram (file : ProgramFile)
  | run
  | getRegister (reg : BitVec 8)
  | readWordFromMemory (address : Word)
deriving DecidableEq, Repr

/-- What a method gives its caller. -/
inductive Reply where
  | status (code : Int)
  | returned
  | value (word : Word)
  | thrown (e : Exception)
deriving DecidableEq, Repr

/-- One call: the reply and the CPU it leaves, or `none` where `run` has not
ended within `fuel` cycles. -/
def call (fuel : Nat) (self : CPU) : Call → Option (Reply × CPU)
  | .loadProgram file =>
    match self.loadProgram file with
    | (.ok status, self') => some (.status status, self')
    | (.error e, self') => some (.thrown e, self')
  | .run =>
    match self.run fuel with
    | none => none
    | some (.ok () self') => some (.returned, self')
    | some (.error e self') => some (.thrown e, self')
  | .getRegister reg =>
    match self.getRegister reg with
    | .ok word => some (.value word, self)
    | .error e => some (.thrown e, self)
  | .readWordFromMemory address => some (.value (self.readWordFromMemory address), self)

/-- Calls made one after the other. -/
def session (fuel : Nat) : List Call → CPU → Option (List Reply × CPU)
  | [], self => some ([], self)
  | c :: calls, self => do
    let (reply, self) ← self.call fuel c
    let (replies, self) ← session fuel calls self
    return (reply :: replies, self)

theorem session_cons {fuel : Nat} {self next last : CPU} {c : Call} {calls : List Call}
    {reply : Reply} {replies : List Reply} (hcall : self.call fuel c = some (reply, next))
    (hrest : session fuel calls next = some (replies, last)) :
    session fuel (c :: calls) self = some (reply :: replies, last) := by
  rw [session, hcall]
  simp only [Option.bind_eq_bind, Option.bind_some, hrest]
  rfl

/-- A session is a call and then a session. -/
theorem session_cons_iff {fuel : Nat} {self last : CPU} {c : Call} {calls : List Call}
    {replies : List Reply} : session fuel (c :: calls) self = some (replies, last) ↔
      ∃ reply next rest, self.call fuel c = some (reply, next) ∧
        session fuel calls next = some (rest, last) ∧ replies = reply :: rest := by
  constructor
  · intro h
    rw [session] at h
    obtain ⟨⟨reply, next⟩, hcall, h⟩ := Option.bind_eq_some_iff.mp h
    obtain ⟨⟨rest, last'⟩, hrest, h⟩ := Option.bind_eq_some_iff.mp h
    obtain ⟨rfl, rfl⟩ := Prod.mk.inj (Option.some.inj h)
    exact ⟨reply, next, rest, hcall, hrest, rfl⟩
  · rintro ⟨reply, next, rest, hcall, hrest, rfl⟩
    exact session_cons hcall hrest

/-- One session after another is one session. -/
theorem session_append {fuel : Nat} {self next last : CPU} {calls calls' : List Call}
    {replies replies' : List Reply} (h : session fuel calls self = some (replies, next))
    (h' : session fuel calls' next = some (replies', last)) :
    session fuel (calls ++ calls') self = some (replies ++ replies', last) := by
  induction calls generalizing self replies with
  | nil =>
      obtain ⟨rfl, rfl⟩ := Prod.mk.inj (Option.some.inj h)
      exact h'
  | cons c calls ih =>
      obtain ⟨reply, mid, rest, hcall, hrest, rfl⟩ := session_cons_iff.mp h
      exact session_cons hcall (ih hrest)

/-! ## every session ends -/

/-- The replies a call can get. -/
def Reply.Answers : Call → Reply → Prop
  | .loadProgram .oversized, reply => reply = .thrown .lengthError
  | .loadProgram .unallocated, reply => reply = .thrown .badAlloc
  | .loadProgram _, .status code => code = 0 ∨ code = -1
  | .run, .returned => True
  | .run, .thrown e => e = .exception
  | .getRegister reg, .value _ => reg.toNat < 32
  | .getRegister reg, .thrown e =>
    32 ≤ reg.toNat ∧ e = .outOfRange "Register index out of range"
  | .readWordFromMemory _, .value _ => True
  | _, _ => False

/-- A register is read unless there is none of this number. -/
theorem call_getRegister (self : CPU) (reg : BitVec 8) :
    ∃ reply, (∀ fuel, self.call fuel (.getRegister reg) = some (reply, self)) ∧
      reply.Answers (.getRegister reg) := by
  by_cases hreg : reg.toNat < 32
  · refine ⟨.value self.pipeline.registerBank.registers[reg.toNat], fun fuel => ?_, hreg⟩
    rw [call, getRegister, RegisterBank.read, dif_pos hreg]
  · refine ⟨.thrown (.outOfRange "Register index out of range"), fun fuel => ?_,
      Nat.le_of_not_lt hreg, rfl⟩
    rw [call, getRegister, RegisterBank.read, dif_neg hreg]

/-- Loading a file gives its status, or what it throws, and leaves the CPU it
leaves. -/
theorem call_loadProgram (self : CPU) (file : ProgramFile) :
    ∃ reply, ∀ fuel, self.call fuel (.loadProgram file) =
      some (reply, (self.loadProgram file).2) := by
  rcases hload : self.loadProgram file with ⟨e | status, self'⟩
  · exact ⟨.thrown e, fun fuel => by rw [call, hload]⟩
  · exact ⟨.status status, fun fuel => by rw [call, hload]⟩

/-- A load that returns, as a call. -/
theorem call_loadProgram_of_ok {self self' : CPU} {file : ProgramFile} {status : Int}
    (h : self.loadProgram file = (.ok status, self')) (fuel : Nat) :
    self.call fuel (.loadProgram file) = some (.status status, self') := by
  rw [call, h]

variable {memorySize : Nat} {garbage : Uninitialized} {self : CPU}

/-- No call leads out of the states a CPU gets into. -/
theorem Attainable.call (h : Attainable memorySize garbage self) {fuel : Nat} {c : Call}
    {reply : Reply} {self' : CPU} (hcall : self.call fuel c = some (reply, self')) :
    Attainable memorySize garbage self' := by
  cases c with
  | loadProgram file =>
      obtain ⟨reply', hcall'⟩ := self.call_loadProgram file
      rw [hcall'] at hcall
      obtain ⟨-, rfl⟩ := Prod.mk.inj (Option.some.inj hcall)
      exact h.loadProgram file
  | run =>
      rw [CPU.call] at hcall
      cases hrun : self.run fuel with
      | none => rw [hrun] at hcall; contradiction
      | some r =>
          have hr := h.run hrun
          rw [hrun] at hcall
          cases r with
          | ok _ last =>
              obtain ⟨-, rfl⟩ := Prod.mk.inj (Option.some.inj hcall)
              exact hr
          | error e last =>
              obtain ⟨-, rfl⟩ := Prod.mk.inj (Option.some.inj hcall)
              exact hr
  | getRegister reg =>
      obtain ⟨reply', hcall', -⟩ := self.call_getRegister reg
      rw [hcall'] at hcall
      obtain ⟨-, rfl⟩ := Prod.mk.inj (Option.some.inj hcall)
      exact h
  | readWordFromMemory address =>
      obtain ⟨-, rfl⟩ := Prod.mk.inj (Option.some.inj hcall)
      exact h

/-- Loading a file reports success or failure, or throws for want of a
buffer. -/
theorem Attainable.load_ends (h : Attainable memorySize garbage self) (file : ProgramFile) :
    ∃ reply self', (∀ fuel, self.call fuel (.loadProgram file) = some (reply, self')) ∧
      reply.Answers (.loadProgram file) := by
  cases file with
  | unopened => exact ⟨_, _, fun _ => rfl, .inr rfl⟩
  | oversized => exact ⟨_, _, fun _ => rfl, rfl⟩
  | unallocated => exact ⟨_, _, fun _ => rfl, rfl⟩
  | unreadable => exact ⟨_, _, fun _ => rfl, .inr rfl⟩
  | contents bytes =>
      by_cases hfit : bytes.length ≤ loadable memorySize
      · exact ⟨_, _, call_loadProgram_of_ok (h.loadProgram_short hfit), .inl rfl⟩
      · exact ⟨_, _, call_loadProgram_of_ok (h.loadProgram_long (Nat.lt_of_not_le hfit)), .inr rfl⟩

/-- A run comes to an end within a cycle more than there are words in a page. -/
theorem Attainable.run_ends (h : Attainable memorySize garbage self) :
    ∃ r, (∀ fuel, 1024 < fuel → self.run fuel = some r) ∧
      (outcome r = .ok () ∨ outcome r = .error .exception) := by
  obtain ⟨n, hn, hcompletes, e, self', hthrows⟩ := h.exists_throw
  obtain ⟨r, hrun, hout⟩ := run_of_throws hcompletes hthrows
  have hpage : loadable memorySize ≤ 4096 := Nat.min_le_right _ _
  exact ⟨r, fun fuel hfuel => hrun fuel (by omega), hout⟩

/-- **One call** comes back, with a reply of its kind. -/
theorem Attainable.call_ends (h : Attainable memorySize garbage self) (c : Call) :
    ∃ reply self', (∀ fuel, 1024 < fuel → self.call fuel c = some (reply, self')) ∧
      reply.Answers c := by
  cases c with
  | loadProgram file =>
      obtain ⟨reply, self', hcall, hanswers⟩ := h.load_ends file
      exact ⟨reply, self', fun fuel _ => hcall fuel, hanswers⟩
  | run =>
      obtain ⟨r, hrun, hout⟩ := h.run_ends
      cases r with
      | ok _ self' =>
          exact ⟨.returned, self', fun fuel hfuel => by rw [CPU.call, hrun fuel hfuel], trivial⟩
      | error e self' =>
          obtain rfl : e = .exception := by
            rcases hout with hout | hout
            · contradiction
            · exact Except.error.inj hout
          exact ⟨.thrown .exception, self',
            fun fuel hfuel => by rw [CPU.call, hrun fuel hfuel], rfl⟩
  | getRegister reg =>
      obtain ⟨reply, hcall, hanswers⟩ := self.call_getRegister reg
      exact ⟨reply, self, fun fuel _ => hcall fuel, hanswers⟩
  | readWordFromMemory address => exact ⟨_, self, fun _ _ => rfl, trivial⟩

end CPU

/-- **Every session ends**: whatever a host calls on a CPU that has been through
any loads and cycles, each call comes back, with a reply of its kind, within
1025 cycles of a run; no call is kept waiting, none throws anything but
`get_register` for a register there is not, `load_program` for a file there is
no buffer for and `run`, and 1025 cycles or more make no difference. -/
theorem session_ends {memorySize : Nat} {garbage : Uninitialized} {self : CPU}
    (h : CPU.Attainable memorySize garbage self) (calls : List CPU.Call) :
    ∃ replies self', (∀ fuel, 1024 < fuel → CPU.session fuel calls self = some (replies, self')) ∧
      List.Forall₂ CPU.Reply.Answers calls replies ∧
      CPU.Attainable memorySize garbage self' := by
  induction calls generalizing self with
  | nil => exact ⟨[], self, fun _ _ => rfl, .nil, h⟩
  | cons c calls ih =>
      obtain ⟨reply, next, hcall, hanswers⟩ := h.call_ends c
      obtain ⟨replies, last, hrest, hall, hlast⟩ := ih (h.call (hcall 1025 (by decide)))
      exact ⟨reply :: replies, last,
        fun fuel hfuel => CPU.session_cons (hcall fuel hfuel) (hrest fuel hfuel),
        .cons hanswers hall, hlast⟩

/-- The two-instruction program of the test suite is run, a register it has set
read, one there is not, and a directory loaded. -/
theorem session_ends_two : ∃ replies self',
    CPU.session 1025 [.run, .getRegister 2, .getRegister 32, .loadProgram .unallocated]
      CPU.bootTwo = some (replies, self') ∧
    List.Forall₂ CPU.Reply.Answers
      [.run, .getRegister 2, .getRegister 32, .loadProgram .unallocated] replies := by
  obtain ⟨replies, self', hsession, hall, -⟩ := session_ends CPU.attainable_bootTwo
    [.run, .getRegister 2, .getRegister 32, .loadProgram .unallocated]
  exact ⟨replies, self', hsession 1025 (by decide), hall⟩

/-! ## a larger memory -/

namespace CPU

/-- The reply of a call that went well: the file was loaded, the program came
to its end, the word lies in page and memory. -/
def Reply.Unharmed (memorySize : Nat) : Call → Reply → Prop
  | .loadProgram _, reply => reply = .status 0
  | .run, reply => reply = .returned
  | .getRegister _, _ => True
  | .readWordFromMemory address, _ => address.toNat + 4 ≤ loadable memorySize

variable {memorySize memorySize' : Nat} {garbage garbage' : Uninitialized} {self cpu self' : CPU}

/-- **One call** that goes well does the same with more memory. -/
theorem Over.call (h : Over MMU.Extends self cpu) (hself : Attainable memorySize garbage self)
    (hcpu : Attainable memorySize' garbage' cpu) (hsize : memorySize ≤ memorySize') {fuel : Nat}
    {c : Call} {reply : Reply} (hcall : self.call fuel c = some (reply, self'))
    (hgood : reply.Unharmed memorySize c) :
    ∃ cpu', cpu.call fuel c = some (reply, cpu') ∧ Over MMU.Extends self' cpu' := by
  cases c with
  | loadProgram file =>
      obtain rfl : reply = .status 0 := hgood
      cases file with
      | contents bytes =>
          by_cases hfit : bytes.length ≤ loadable memorySize
          · obtain ⟨hzero', hover⟩ := h.loadProgram hself hcpu hfit hsize
            rw [call_loadProgram_of_ok (Prod.ext (hself.status_eq_zero_iff.mpr hfit) rfl)] at hcall
            obtain ⟨-, rfl⟩ := Prod.mk.inj (Option.some.inj hcall)
            exact ⟨_, call_loadProgram_of_ok (Prod.ext hzero' rfl) fuel, hover⟩
          · rw [call_loadProgram_of_ok (hself.loadProgram_long (Nat.lt_of_not_le hfit))] at hcall
            have hstatus := Reply.status.inj (Prod.mk.inj (Option.some.inj hcall)).1
            contradiction
      | _ => simp [CPU.call, CPU.loadProgram] at hcall
  | run =>
      obtain rfl : reply = .returned := hgood
      rw [CPU.call] at hcall ⊢
      cases hrun : self.run fuel with
      | none => rw [hrun] at hcall; contradiction
      | some r =>
          rw [hrun] at hcall
          cases r with
          | error e last => cases hcall
          | ok _ last =>
              obtain ⟨-, rfl⟩ := Prod.mk.inj (Option.some.inj hcall)
              obtain ⟨cpu', hrun', hover⟩ := h.run_ok hrun
              rw [hrun']
              exact ⟨cpu', rfl, hover⟩
  | getRegister reg =>
      have hget : cpu.getRegister reg = self.getRegister reg :=
        congrArg (RegisterBank.read · reg) h.registerBank
      rw [CPU.call] at hcall ⊢
      rw [hget]
      cases hread : self.getRegister reg with
      | ok word =>
          rw [hread] at hcall
          obtain ⟨rfl, rfl⟩ := Prod.mk.inj (Option.some.inj hcall)
          exact ⟨cpu, rfl, h⟩
      | error e =>
          rw [hread] at hcall
          obtain ⟨rfl, rfl⟩ := Prod.mk.inj (Option.some.inj hcall)
          exact ⟨cpu, rfl, h⟩
  | readWordFromMemory address =>
      obtain ⟨rfl, rfl⟩ := Prod.mk.inj (Option.some.inj hcall)
      have hfit : address.toNat + 4 ≤ loadable memorySize := hgood
      have hreach := (MMU.wordReadable_iff _ _).mp ((hself.wordReadable_iff address).mpr hfit)
      obtain ⟨w, hw⟩ := (MMU.readWord_ok_iff_reaches _ _).mpr hreach
      have hw' : cpu.pipeline.mmu.readWord address = .ok w := h.mmu.readWord hw
      refine ⟨cpu, ?_, h⟩
      rw [CPU.call, readWordFromMemory, readWordFromMemory, hw, hw']

/-- So does every session of such calls. -/
theorem Over.session (h : Over MMU.Extends self cpu) (hself : Attainable memorySize garbage self)
    (hcpu : Attainable memorySize' garbage' cpu) (hsize : memorySize ≤ memorySize') {fuel : Nat}
    {calls : List Call} {replies : List Reply}
    (hsession : CPU.session fuel calls self = some (replies, self'))
    (hgood : List.Forall₂ (Reply.Unharmed memorySize) calls replies) :
    ∃ cpu', CPU.session fuel calls cpu = some (replies, cpu') ∧ Over MMU.Extends self' cpu' := by
  induction calls generalizing self cpu replies with
  | nil =>
      obtain ⟨rfl, rfl⟩ := Prod.mk.inj (Option.some.inj hsession)
      exact ⟨cpu, rfl, h⟩
  | cons c calls ih =>
      obtain ⟨reply, next, rest, hcall, hrest, rfl⟩ := session_cons_iff.mp hsession
      obtain ⟨hfirst, hothers⟩ := List.forall₂_cons.mp hgood
      obtain ⟨next', hcall', hnext⟩ := h.call hself hcpu hsize hcall hfirst
      obtain ⟨cpu', hrest', hlast⟩ := ih hnext (hself.call hcall) (hcpu.call hcall') hrest hothers
      exact ⟨cpu', session_cons hcall' hrest', hlast⟩

end CPU

/-- **A larger memory**: a session of which every load succeeds, every run
comes to the end of its program and every word read lies in page and memory,
gets the same replies from a CPU with more memory. -/
theorem session_extends {memorySize memorySize' : Nat} (garbage : Uninitialized)
    (hsize : memorySize ≤ memorySize') {fuel : Nat} {calls : List CPU.Call}
    {replies : List CPU.Reply} {self' : CPU}
    (h : CPU.session fuel calls (.new memorySize garbage) = some (replies, self'))
    (hgood : List.Forall₂ (CPU.Reply.Unharmed memorySize) calls replies) :
    ∃ cpu', CPU.session fuel calls (.new memorySize' garbage) = some (replies, cpu') ∧
      cpu'.pipeline.registerBank = self'.pipeline.registerBank ∧
      ∀ (a : Nat) b, self'.pipeline.mmu.physicalMemory.memory[a]? = some b →
        cpu'.pipeline.mmu.physicalMemory.memory[a]? = some b := by
  obtain ⟨cpu', hsession, hover⟩ := (CPU.over_new garbage hsize).session .new .new hsize h hgood
  exact ⟨cpu', hsession, hover.registerBank, hover.mmu.memory⟩

/-- `addi x1, x0, 5` loaded and run, and its register read. -/
def sessionFive : List CPU.Call :=
  [.loadProgram (.contents (programFile [.imm .addi 1 0 5])), .run, .getRegister 1]

/-- With sixteen bytes of memory it goes as with eight. -/
theorem session_extends_five : ∃ cpu', CPU.session 2 sessionFive (.new 16 ⟨7, 8, 9⟩) =
    some ([.status 0, .returned, .value 5], cpu') := by
  have hnew : CPU.Attainable 8 ⟨7, 8, 9⟩ (.new 8 ⟨7, 8, 9⟩) := .new
  obtain ⟨loaded, ran, hload, hrun, hx, -⟩ := hnew.run_program [.imm .addi 1 0 5] (by decide)
  have hx1 : ran.pipeline.registerBank.x 1 = 5 := by
    rw [hx]
    decide +kernel
  have hload' : (CPU.new 8 ⟨7, 8, 9⟩).call 2
      (.loadProgram (.contents (programFile [.imm .addi 1 0 5]))) = some (.status 0, loaded) :=
    CPU.call_loadProgram_of_ok hload 2
  have hrun' : loaded.call 2 .run = some (.returned, ran) := by
    rw [CPU.call, hrun 2 (by decide)]
  have hread : ran.call 2 (.getRegister 1) = some (.value 5, ran) := by
    have hreg : ran.getRegister 1 = .ok (ran.pipeline.registerBank.x 1) :=
      RegisterBank.read_eq _ 1
    rw [CPU.call, hreg, hx1]
  have hsession : CPU.session 2 sessionFive (.new 8 ⟨7, 8, 9⟩) =
      some ([.status 0, .returned, .value 5], ran) :=
    CPU.session_cons hload' (CPU.session_cons hrun' (CPU.session_cons hread rfl))
  have hsize : 8 ≤ 16 := by decide
  obtain ⟨cpu', hsession', -⟩ := session_extends ⟨7, 8, 9⟩ hsize hsession
    (.cons rfl (.cons rfl (.cons trivial .nil)))
  exact ⟨cpu', hsession'⟩

/-! ## programs -/

namespace CPU

/-- Programs loaded and run one after the other. -/
def programCalls (programs : List (List AluInstr)) : List Call :=
  programs.flatMap fun is => [.loadProgram (.contents (programFile is)), .run]

/-- What a host is told when all goes well. -/
def programReplies (programs : List (List AluInstr)) : List Reply :=
  programs.flatMap fun _ => [.status 0, .returned]

/-- Memory with the files of the programs laid over it. -/
def overlays (memory : List Byte) (programs : List (List AluInstr)) : List Byte :=
  programs.foldl (fun memory is => overlay memory 0 (programFile is)) memory

variable {memorySize : Nat} {garbage : Uninitialized} {self : CPU}

/-- **One program** after another is the one followed by the other. -/
theorem Attainable.programs (h : Attainable memorySize garbage self)
    (programs : List (List AluInstr))
    (hfit : ∀ is ∈ programs, (programFile is).length ≤ loadable memorySize) :
    ∃ self', (∀ fuel, 1024 < fuel → session fuel (programCalls programs) self =
        some (programReplies programs, self')) ∧
      self'.pipeline.registerBank.x =
        Rv32i.exec programs.flatten self.pipeline.registerBank.x ∧
      self'.pipeline.mmu.physicalMemory.memory =
        overlays self.pipeline.mmu.physicalMemory.memory programs := by
  induction programs generalizing self with
  | nil => exact ⟨self, fun _ _ => rfl, rfl, rfl⟩
  | cons is programs ih =>
      have hfile := hfit is List.mem_cons_self
      obtain ⟨loaded, ran, hload, hrun, hx, hmemory⟩ := h.run_program is hfile
      have hlength : is.length ≤ 1024 := by
        have hpage : loadable memorySize ≤ 4096 := Nat.min_le_right _ _
        have hbytes := length_programFile is
        omega
      have hcall : ∀ fuel, self.call fuel (.loadProgram (.contents (programFile is))) =
          some (.status 0, loaded) := call_loadProgram_of_ok hload
      have hcall' : ∀ fuel, 1024 < fuel → loaded.call fuel .run = some (.returned, ran) := by
        intro fuel hfuel
        rw [CPU.call, hrun fuel (by omega)]
      have hran := (h.call (hcall 0)).call (hcall' 1025 (by decide))
      obtain ⟨self', hsession, hx', hmemory'⟩ :=
        ih hran fun is' his' => hfit is' (List.mem_cons_of_mem is his')
      refine ⟨self', fun fuel hfuel => ?_, ?_, ?_⟩
      · exact session_cons (hcall fuel) (session_cons (hcall' fuel hfuel) (hsession fuel hfuel))
      · rw [hx', hx, List.flatten_cons, Rv32i.exec_append]
      · rw [hmemory', hmemory]
        rfl

end CPU

/-- **Programs**: arithmetic programs that fit, loaded and run one after the
other on a CPU that has been through any loads and cycles, are each loaded and
run to their end, and the registers are then those RV32I computes for all of
them as one program; memory has their files laid over it. -/
theorem session_programs {memorySize : Nat} {garbage : Uninitialized} {self : CPU}
    (h : CPU.Attainable memorySize garbage self) (programs : List (List AluInstr))
    (hfit : ∀ is ∈ programs, 4 * (is.length + 1) ≤ loadable memorySize) :
    ∃ self', (∀ fuel, 1024 < fuel → CPU.session fuel (CPU.programCalls programs) self =
        some (CPU.programReplies programs, self')) ∧
      self'.pipeline.registerBank.x =
        Rv32i.exec programs.flatten self.pipeline.registerBank.x ∧
      self'.pipeline.mmu.physicalMemory.memory =
        CPU.overlays self.pipeline.mmu.physicalMemory.memory programs := by
  refine h.programs programs fun is his => ?_
  rw [length_programFile]
  exact hfit is his

/-- 42 into `x1` by one program, and that and 58 into `x2` by another. -/
theorem session_programs_two : ∃ self', CPU.session 1025
    (CPU.programCalls [[.imm .addi 1 0 42], [.imm .addi 2 1 58]]) (.new 1048576 ⟨7, 8, 9⟩) =
      some ([.status 0, .returned, .status 0, .returned], self') ∧
    self'.pipeline.registerBank.x 2 = 100 := by
  have hnew : CPU.Attainable 1048576 ⟨7, 8, 9⟩ (.new 1048576 ⟨7, 8, 9⟩) := .new
  obtain ⟨self', hsession, hx, -⟩ :=
    session_programs hnew [[.imm .addi 1 0 42], [.imm .addi 2 1 58]] (by decide)
  refine ⟨self', hsession 1025 (by decide), ?_⟩
  rw [hx]
  decide +kernel

/-! ## preparation -/

namespace CPU

/-- No session leads out of the states a CPU gets into. -/
theorem Attainable.session {memorySize : Nat} {garbage : Uninitialized} {self self' : CPU}
    (h : Attainable memorySize garbage self) {fuel : Nat} {calls : List Call}
    {replies : List Reply} (hsession : CPU.session fuel calls self = some (replies, self')) :
    Attainable memorySize garbage self' := by
  induction calls generalizing self replies with
  | nil =>
      obtain ⟨-, rfl⟩ := Prod.mk.inj (Option.some.inj hsession)
      exact h
  | cons c calls ih =>
      obtain ⟨reply, next, rest, hcall, hrest, -⟩ := session_cons_iff.mp hsession
      exact ih (h.call hcall) hrest

/-- All registers. -/
def allRegisters : List Rv32i.Reg := (List.finRange 32).map BitVec.ofFin

theorem mem_allRegisters (r : Rv32i.Reg) : r ∈ allRegisters :=
  List.mem_map.mpr ⟨r.toFin, List.mem_finRange _, rfl⟩

/-- One program for each register, to load its value. -/
def registerPrograms (x : Registers) : List (List AluInstr) :=
  allRegisters.map fun rd => Rv32i.loadConstant rd (x rd)

variable {memorySize : Nat} {garbage : Uninitialized} {self : CPU}

/-- They set up all registers. -/
theorem Attainable.session_registers (h : Attainable memorySize garbage self)
    (hsize : 12 ≤ memorySize) {x : Registers} (hx0 : x 0 = 0) :
    ∃ replies self', CPU.session 1025 (programCalls (registerPrograms x)) self =
      some (replies, self') ∧ self'.pipeline.registerBank.x = x := by
  have hfit : ∀ is ∈ registerPrograms x, (programFile is).length ≤ loadable memorySize := by
    intro is his
    obtain ⟨rd, -, rfl⟩ := List.mem_map.mp his
    have hlength : (programFile (Rv32i.loadConstant rd (x rd))).length = 12 := length_programFile _
    rw [hlength]
    exact Nat.le_min.mpr ⟨hsize, by decide⟩
  obtain ⟨self', hsession, hx, -⟩ := h.programs (registerPrograms x) hfit
  refine ⟨_, self', hsession 1025 (by decide), ?_⟩
  rw [hx, registerPrograms, ← List.flatMap_def]
  funext r
  rw [Rv32i.exec_loadConstants]
  by_cases hr : r = 0
  · rw [if_neg fun hmem => hmem.2 hr, hr, h.reachable.x0, hx0]
  · rw [if_pos ⟨mem_allRegisters r, hr⟩]

/-- A file as long as memory and page sets up all the memory there is to set
up. -/
theorem Attainable.loadProgram_memory (h : Attainable memorySize garbage self)
    {memory : List Byte} (hlength : memory.length = memorySize)
    (hbeyond : ∀ a, 4096 ≤ a → a < memorySize → memory[a]? = some 0) :
    ∃ self', self.loadProgram (.contents (memory.take (loadable memorySize))) = (.ok 0, self') ∧
      self'.pipeline.registerBank = self.pipeline.registerBank.setPc 0 ∧
      self'.pipeline.mmu.physicalMemory.memory = memory := by
  have hle : loadable memorySize ≤ memory.length := by
    rw [hlength]
    exact Nat.min_le_left _ _
  have htake : (memory.take (loadable memorySize)).length = loadable memorySize :=
    List.length_take_of_le hle
  refine ⟨_, h.loadProgram_short (Nat.le_of_eq htake), rfl, ?_⟩
  apply List.ext_getElem?
  intro a
  show (overlay self.pipeline.mmu.physicalMemory.memory 0 _)[a]? = _
  rw [getElem?_overlay_zero, htake]
  by_cases ha : a < loadable memorySize
  · rw [if_pos ha, List.getElem?_take_of_lt ha]
  · rw [if_neg ha]
    by_cases hin : a < memorySize
    · have hpage : 4096 ≤ a := by
        unfold loadable at ha
        omega
      rw [h.getElem?_beyond hpage hin, hbeyond a hpage hin]
    · rw [List.getElem?_eq_none (by rw [h.length_memory]; omega),
        List.getElem?_eq_none (by omega)]

end CPU

/-- **Preparation**: by calls of its methods a host can set up, before a run
from address 0, exactly the registers and memories with a zero register of 0
and zeros beyond the first page; twelve bytes of memory are enough for that. -/
theorem session_prepares {memorySize : Nat} (garbage : Uninitialized) (hsize : 12 ≤ memorySize)
    (x : Registers) (memory : List Byte) :
    (∃ fuel calls replies self',
      CPU.session fuel calls (.new memorySize garbage) = some (replies, self') ∧
      self'.pipeline.registerBank.x = x ∧ self'.pipeline.registerBank.pc = 0 ∧
      self'.pipeline.mmu.physicalMemory.memory = memory) ↔
    x 0 = 0 ∧ memory.length = memorySize ∧
      ∀ a, 4096 ≤ a → a < memorySize → memory[a]? = some 0 := by
  have hnew : CPU.Attainable memorySize garbage (.new memorySize garbage) := .new
  constructor
  · rintro ⟨fuel, calls, replies, self', hsession, rfl, -, rfl⟩
    have hself := hnew.session hsession
    exact ⟨hself.reachable.x0, hself.length_memory, fun a => hself.getElem?_beyond⟩
  · rintro ⟨hx0, hlength, hbeyond⟩
    obtain ⟨replies, self, hsession, hx⟩ := hnew.session_registers hsize hx0
    obtain ⟨self', hload, hbank, hmemory⟩ :=
      (hnew.session hsession).loadProgram_memory hlength hbeyond
    have hcall : self.call 1025 (.loadProgram (.contents (memory.take (loadable memorySize)))) =
        some (.status 0, self') := CPU.call_loadProgram_of_ok hload 1025
    have hlast : CPU.session 1025 [] self' = some ([], self') := rfl
    refine ⟨1025, _, _, self', CPU.session_append hsession (CPU.session_cons hcall hlast), ?_, ?_,
      hmemory⟩
    · rw [hbank]
      exact hx
    · rw [hbank]
      rfl

/-- Every register but `x0` at -1, and every byte of twelve at 7. -/
theorem session_prepares_ones : ∃ fuel calls replies self',
    CPU.session fuel calls (.new 12 ⟨0, 0, 0⟩) = some (replies, self') ∧
    self'.pipeline.registerBank.x = (fun r => if r = 0 then 0 else -1) ∧
    self'.pipeline.registerBank.pc = 0 ∧
    self'.pipeline.mmu.physicalMemory.memory = List.replicate 12 7 :=
  (session_prepares ⟨0, 0, 0⟩ (Nat.le_refl 12) _ _).mpr
    ⟨rfl, List.length_replicate, fun _ hpage ha => absurd ha (by omega)⟩

end VirtuV
