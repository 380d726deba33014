import VirtuV.Jump
import VirtuV.Reachable
import VirtuV.Rejection
import VirtuV.WordAccess

/-!
# VirtuV.Fault

What `run` makes of a cycle that faults.

A cycle that neither completes nor ends the program throws a memory fault or a
rejected argument, and `Faults` reads off the state before the cycle when it
does.  The handler of `run` catches every such exception as `const
std::exception&` and throws it again by `throw e`, a copy of the base class
alone: whatever the fault was, the caller is handed a bare `std::exception`.
-/

namespace VirtuV

open Stateful
open Rv32i (opcode funct3 rs2)

/-! ## the cycles that fault -/

/-- The rest of a cycle throws, and not to end the program, exactly for a word
that is refused and a store that cannot be written. -/
theorem Core.fault_finish_iff (w : Word) (c : Core) :
    (∃ e, outcome ((finish w).run c) = .error e ∧ ¬ e.IsEndOfProgram) ↔
      Refused w ∨ opcode w = 0x23 ∧ ¬ c.mmu.WordWritable (storeAddress w c.x) := by
  have hinvalid := Exception.not_isEndOfProgram_invalidArgument
  rcases opcode_cases w with h | h | h | h | h | h | h
  · by_cases hf : funct3 w = 0
    · rw [run_finish_reg c h (if_pos hf)]
      simp [Refused, h, hf]
    · rw [run_finish_reg_error c h hf]
      exact ⟨fun _ => .inl ((refused_reg_iff h).mpr hf), fun _ => ⟨_, rfl, hinvalid _⟩⟩
  · rw [run_finish_imm c h]
    simp [Refused, h]
  · -- a store throws what its word write throws, a memory fault
    rw [run_finish_store c h, outcome_zoom]
    have hthrows := MMU.writeWord_error_iff c.mmu (storeAddress w c.x) (c.x (rs2 w))
    constructor
    · rintro ⟨e, he, -⟩
      exact .inr ⟨h, hthrows.mp ⟨e, he⟩⟩
    · intro hor
      obtain ⟨-, hnot⟩ := hor.resolve_left (not_refused_store h)
      obtain ⟨e, he⟩ := hthrows.mpr hnot
      exact ⟨e, he, (MMU.memoryFault_of_writeWord he).not_isEndOfProgram⟩
  · cases ht : takesB w c.x with
    | some taken =>
        rw [run_finish_branch c h ht]
        simp [refused_branch_iff h c.x, h, ht]
    | none =>
        rw [run_finish_branch_error c h ht]
        exact ⟨fun _ => .inl ((refused_branch_iff h c.x).mpr ht), fun _ => ⟨_, rfl, hinvalid _⟩⟩
  · rw [run_finish_upper c h]
    simp [Refused, h]
  · by_cases hi : getImmediateJ ⟨w⟩ = 0
    · rw [run_finish_jump_end c h hi]
      simp [Refused, h, Exception.IsEndOfProgram]
    · rw [run_finish_jump c h hi]
      simp [Refused, h]
  · rw [run_finish_unsupported c h]
    exact ⟨fun _ => .inl (refused_of_decode_error h), fun _ => ⟨_, rfl, hinvalid _⟩⟩

namespace Pipeline

/-- The word at `pc` cannot be fetched, is refused by the decoder or the
execute stage, or is a store one of whose bytes cannot be written. -/
def Faults (s : Pipeline) : Prop :=
  ¬ s.mmu.WordReadable s.registerBank.pc ∨
    ∃ w, s.mmu.readWord s.registerBank.pc = .ok w ∧
      (Refused w ∨ opcode w = 0x23 ∧ ¬ s.mmu.WordWritable (storeAddress w s.registerBank.x))

/-- **One cycle** throws, and not to end the program, exactly where the state
before it says so. -/
theorem faults_iff (s : Pipeline) :
    s.Faults ↔ ∃ e, outcome (runCycle.run s) = .error e ∧ ¬ e.IsEndOfProgram := by
  rcases s.mmu.readWord_cases_readable s.registerBank.pc with ⟨w, hw, hread⟩ | ⟨e, he, hread⟩
  · rw [outcome_runCycle_of_fetch hw, Core.fault_finish_iff, Faults]
    constructor
    · rintro (hnot | ⟨w', hw', hfault⟩)
      · exact absurd hread hnot
      · rw [hw] at hw'
        obtain rfl := Except.ok.inj hw'
        exact hfault
    · exact fun hfault => .inr ⟨w, hw, hfault⟩
  · obtain ⟨s', hrun, -⟩ := runCycle_of_fetch_error he
    have hout : outcome (runCycle.run s) = .error e := by rw [hrun, outcome_error]
    have hend : ¬ e.IsEndOfProgram := fun hend =>
      not_atEnd_of_fetch_error he ((endOfProgram_runCycle_iff s).mp ⟨e, hout, hend⟩)
    exact ⟨fun _ => ⟨e, hout, hend⟩, fun _ => .inl hread⟩

/-- A cycle completes exactly where it neither ends the program nor faults. -/
theorem returns_iff (s : Pipeline) :
    (∃ a, outcome (runCycle.run s) = .ok a) ↔ ¬ s.AtEnd ∧ ¬ s.Faults := by
  rw [← endOfProgram_runCycle_iff, faults_iff]
  cases outcome (runCycle.run s) with
  | ok a => simp
  | error e =>
      by_cases hend : e.IsEndOfProgram
      · simp [hend]
      · simp [hend]

end Pipeline

namespace CPU

theorem faults_iff (self : CPU) : self.pipeline.Faults ↔
    ∃ e self', runCycle.run self = .error e self' ∧ ¬ e.IsEndOfProgram := by
  rw [runCycle_throws_iff, Pipeline.faults_iff]

/-- The first cycles of a run complete exactly where none of them ends the
program or faults. -/
theorem completes_iff (n : Nat) (self : CPU) : Completes runCycle n self ↔
    ∀ k < n, ¬ (after runCycle k self).pipeline.AtEnd ∧
      ¬ (after runCycle k self).pipeline.Faults := by
  simp only [Completes, outcome_runCycle, Pipeline.returns_iff]

/-! ## what `run` reports -/

/-- What `run` throws is a bare `std::exception`, for every exception but the
end of a program. -/
theorem run_eq_error_iff (fuel : Nat) (self self' : CPU) (e : Exception) :
    self.run fuel = some (.error e self') ↔
      e = .exception ∧ ∃ e', runLoop fuel self = some (e', self') ∧ ¬ e'.IsEndOfProgram := by
  unfold run
  cases runLoop fuel self with
  | none => simp
  | some p =>
      obtain ⟨e', last⟩ := p
      cases e' <;> simp [Exception.IsEndOfProgram, eq_comm]

/-- No cycle throws a bare `std::exception`. -/
theorem ne_exception_of_runCycle {self self' : CPU} {e : Exception}
    (h : runCycle.run self = .error e self') : e ≠ .exception := by
  have hout : outcome (Pipeline.runCycle.run self.pipeline) = .error e := by
    rw [← outcome_runCycle, h, outcome_error]
  rintro rfl
  rcases Pipeline.error_runCycle hout with hfault | hrej
  · exact hfault
  · cases hrej

/-- Where the first cycle that does not complete throws anything but the end of
a program, `run` ends by throwing that: the same type with the same message. -/
def ReportsFault (self : CPU) : Prop :=
  ∀ n e self', Completes runCycle n self → runCycle.run (after runCycle n self) = .error e self' →
    ¬ e.IsEndOfProgram → ∃ fuel self'', self.run fuel = some (.error e self'')

/-- No cycle of the run faults before the end of the program. -/
def NeverFaults (self : CPU) : Prop :=
  ∀ n, (∀ k < n, ¬ (after runCycle k self).pipeline.AtEnd) →
    ¬ (after runCycle n self).pipeline.Faults

/-- `run` throws a bare `std::exception` from the first cycle that faults. -/
theorem run_of_faults {self : CPU} {n : Nat} (h : Completes runCycle n self)
    (hfaults : (after runCycle n self).pipeline.Faults) {fuel : Nat} (hn : n < fuel) :
    self.run fuel = some (.error .exception (after runCycle (n + 1) self)) := by
  obtain ⟨e, self', hrun, hend⟩ := (faults_iff _).mp hfaults
  rw [run_eq_error_iff]
  refine ⟨rfl, e, (runLoop_eq_some_iff fuel self _ e).mpr ⟨n, hn, h, ?_⟩, hend⟩
  rw [after_succ, hrun, final_error]

end CPU

/-- **The report of a fault**: `run` reports the fault its first failing cycle
raised exactly where no cycle faults before the end of the program.  From the
first that does, be it by what it fetched, by its word or by what it stored to,
`run` throws a bare `std::exception`. -/
theorem run_reportsFault_iff (self : CPU) :
    (self.ReportsFault ↔ self.NeverFaults) ∧
    (∀ n, Completes CPU.runCycle n self → (after CPU.runCycle n self).pipeline.Faults →
      ∀ fuel, n < fuel →
        self.run fuel = some (.error .exception (after CPU.runCycle (n + 1) self))) := by
  refine ⟨?_, fun n h hfaults fuel hn => CPU.run_of_faults h hfaults hn⟩
  constructor
  · intro hreports n
    -- the cycles before a first fault complete, so `run` comes to it
    induction n using Nat.strong_induction_on with
    | h n ih =>
        intro hend hfaults
        have hcompletes : Completes CPU.runCycle n self := by
          rw [CPU.completes_iff]
          exact fun k hk => ⟨hend k hk, ih k hk fun j hj => hend j (hj.trans hk)⟩
        obtain ⟨e, self', hrun, hnot⟩ := (CPU.faults_iff _).mp hfaults
        obtain ⟨fuel, self'', hthrown⟩ := hreports n e self' hcompletes hrun hnot
        obtain ⟨hbare, -⟩ := (CPU.run_eq_error_iff _ _ _ _).mp hthrown
        exact CPU.ne_exception_of_runCycle hrun hbare
  · intro hnever n e self' h hrun hnot
    have hend : ∀ k < n, ¬ (after CPU.runCycle k self).pipeline.AtEnd :=
      fun k hk => ((CPU.completes_iff n self).mp h k hk).1
    exact absurd ((CPU.faults_iff _).mpr ⟨e, self', hrun, hnot⟩) (hnever n hend)

/-- The program of the test suite: `addi x1, x0, 42`, then a word that is no
instruction. -/
def invalidInstruction : CPU :=
  CPU.boot 8 ⟨0, 0, 0⟩ [0x93, 0x00, 0xA0, 0x02, 0xFF, 0xFF, 0xFF, 0xFF]

/-- `lui x1, 1`, then `sw x0, 0(x1)` to a page that is not mapped. -/
def storeUnmapped : CPU :=
  CPU.boot 8 ⟨0, 0, 0⟩ [0xB7, 0x10, 0x00, 0x00, 0x23, 0xA0, 0x00, 0x00]

/-- The second cycle of the one raises an invalid argument, that of the other a
page fault; `run` throws the same for both. -/
theorem run_hidesFault :
    outcome (CPU.runCycle.run (after CPU.runCycle 1 invalidInstruction)) =
      .error (.invalidArgument "Unsupported instruction format") ∧
    outcome (CPU.runCycle.run (after CPU.runCycle 1 storeUnmapped)) =
      .error (.pageFaultException "PageTable::get_entry - No entry for virtual address") ∧
    (invalidInstruction.run 2).map outcome = some (.error .exception) ∧
    (storeUnmapped.run 2).map outcome = some (.error .exception) ∧
    ¬ ∀ self : CPU, self.ReportsFault := by
  have hfirst : outcome (CPU.runCycle.run invalidInstruction) = .ok () := by decide +kernel
  have hsecond : outcome (CPU.runCycle.run (after CPU.runCycle 1 invalidInstruction)) =
      .error (.invalidArgument "Unsupported instruction format") := by decide +kernel
  refine ⟨hsecond, by decide +kernel, by decide +kernel, by decide +kernel, fun h => ?_⟩
  have hcompletes : Completes CPU.runCycle 1 invalidInstruction := by
    rw [completes_succ]
    exact ⟨⟨(), hfirst⟩, fun k hk => absurd hk (Nat.not_lt_zero k)⟩
  obtain ⟨fuel, self'', hthrown⟩ := h invalidInstruction 1 _ _ hcompletes
    (eq_error_of_outcome hsecond) (Exception.not_isEndOfProgram_invalidArgument _)
  obtain ⟨hbare, -⟩ := (CPU.run_eq_error_iff _ _ _ _).mp hthrown
  contradiction

end VirtuV
