import VirtuV.Session
import VirtuV.Lib.Resumed

/-!
# VirtuV.Resume

Runs taken up again.

A run that was ended by an exception leaves `pc` after the word that raised it,
and a further call of `run` goes on from there.  So a host that calls `run`
over and over goes through the cycles of one endless run, piece by piece, until
`pc` has left the page.
-/

namespace VirtuV

open Stateful
open Bits

namespace CPU

/-! ## one run -/

/-- What `run` gives its caller when the cycle after the first `n` ends it. -/
def replyAt (self : CPU) (n : Nat) : Reply :=
  match runCycle.run (after runCycle n self) with
  | .error (.endOfProgramException _) _ => .returned
  | _ => .thrown .exception

/-- A run is the cycles up to the first that throws. -/
theorem call_run_of_throws {self : CPU} {n fuel : Nat} (hcompletes : Completes runCycle n self)
    (hthrows : Throws runCycle self n) (hn : n < fuel) :
    self.call fuel .run = some (self.replyAt n, after runCycle (n + 1) self) := by
  obtain ⟨e, last, hrun⟩ := hthrows
  have hloop : runLoop fuel self = some (e, last) :=
    (runLoop_eq_some_iff fuel self last e).mpr ⟨n, hn, hcompletes, hrun⟩
  rw [call, replyAt, after_succ, hrun, final_error, CPU.run, hloop]
  cases e <;> rfl

/-- Cycles on, the same cycle has a lower number. -/
theorem replyAt_after (self : CPU) (m n : Nat) :
    (after runCycle m self).replyAt n = self.replyAt (m + n) := by
  rw [replyAt, replyAt, after_add]

/-! ## runs of a CPU with one page -/

namespace Attainable

variable {memorySize : Nat} {garbage : Uninitialized} {self : CPU}

/-- Again and again a cycle throws. -/
theorem infinite_throws (h : Attainable memorySize garbage self) :
    (Set.ofPred (Throws CPU.runCycle self)).Infinite := by
  refine Set.infinite_of_forall_exists_gt fun n => ?_
  obtain ⟨k, -, -, e, last, hrun⟩ := (h.cycles (n + 1)).exists_throw
  refine ⟨n + 1 + k, ⟨e, last, ?_⟩, by omega⟩
  rw [after_add]
  exact hrun

/-- **Every run** of a host that does nothing but call `run` is a piece of one
endless run. -/
theorem session_runs (h : Attainable memorySize garbage self) (m : Nat) {fuel : Nat}
    (hfuel : 1024 < fuel) :
    CPU.session fuel (List.replicate m .run) self =
      some ((List.range m).map fun i => self.replyAt (Nat.nth (Throws CPU.runCycle self) i),
        after CPU.runCycle (pieces CPU.runCycle self m) self) := by
  have hinf := h.infinite_throws
  induction m with
  | zero => rfl
  | succ m ih =>
      have hle := pieces_le_nth hinf m
      obtain ⟨hcompletes, hthrows⟩ := completes_piece hinf m
      have hlength := (h.cycles (pieces CPU.runCycle self m)).completes_le hcompletes
      have hpage : loadable memorySize ≤ 4096 := Nat.min_le_right _ _
      have hcall := call_run_of_throws hcompletes hthrows
        (Nat.lt_of_le_of_lt hlength (by omega : _ < fuel))
      rw [replyAt_after, ← after_add, ← Nat.add_assoc, Nat.add_sub_cancel' hle] at hcall
      rw [List.replicate_succ', List.range_succ, List.map_append]
      exact session_append ih (session_cons hcall rfl)

/-- From some cycle on, at most one for every word of a page later, all cycles
throw a memory fault and change nothing of the flat machine. -/
theorem exists_left_page (h : Attainable memorySize garbage self) :
    ∃ N ≤ 1024, ∀ n ≥ N, Throws CPU.runCycle self n ∧ self.replyAt n = .thrown .exception ∧
      (after CPU.runCycle n self).pipeline.core = (after CPU.runCycle N self).pipeline.core := by
  have hpage : loadable memorySize ≤ 4096 := Nat.min_le_right _ _
  have hnot : ¬ self.pipeline.Fetchable 1025 := fun hfetch => by
    have hle := h.fetchable_le hfetch
    omega
  obtain ⟨N, hN, hfetch, hread⟩ := Pipeline.exists_not_readable hnot
  refine ⟨N, Nat.le_of_lt_succ hN, fun n hn => ?_⟩
  have hread' : ¬ (after Pipeline.runCycle N self.pipeline).mmu.WordReadable
      (after Pipeline.runCycle N self.pipeline).registerBank.pc := by
    rw [Pipeline.pc_after_of_fetchable hfetch, (self.pipeline.sameLayout_after N).wordReadable_iff]
    exact hread
  obtain ⟨e, hfault, hstuck⟩ := Pipeline.stuck_of_not_readable hread'
  obtain ⟨hout, hcore⟩ := hstuck (n - N)
  rw [← after_add, Nat.add_sub_cancel' hn] at hout hcore
  rw [← pipeline_after, ← outcome_runCycle] at hout
  refine ⟨⟨e, _, eq_error_of_outcome hout⟩, ?_, ?_⟩
  · rw [replyAt, eq_error_of_outcome hout]
    cases e <;> first | rfl | exact absurd ⟨_, rfl⟩ hfault.not_isEndOfProgram
  · rw [pipeline_after, pipeline_after, hcore]

end Attainable

end CPU

/-- **Runs taken up again**: a host that calls `run` over and over on a CPU that
has been through any loads and cycles gets, call for call, what its endless run
of cycles throws, each call going on after the word that ended the one before;
and from at most the 1025th call on, each throws in its first cycle and leaves
registers, `pc` and memory as they are. -/
theorem session_resumes {memorySize : Nat} {garbage : Uninitialized} {self : CPU}
    (h : CPU.Attainable memorySize garbage self) :
    (∀ m fuel, 1024 < fuel → CPU.session fuel (List.replicate m .run) self =
      some ((List.range m).map fun i => self.replyAt (Nat.nth (Throws CPU.runCycle self) i),
        after CPU.runCycle (pieces CPU.runCycle self m) self)) ∧
    ∃ N ≤ 1024, ∀ m ≥ N,
      pieces CPU.runCycle self (m + 1) = pieces CPU.runCycle self m + 1 ∧
      self.replyAt (Nat.nth (Throws CPU.runCycle self) m) = .thrown .exception ∧
      (after CPU.runCycle (pieces CPU.runCycle self (m + 1)) self).pipeline.core =
        (after CPU.runCycle (pieces CPU.runCycle self m) self).pipeline.core := by
  refine ⟨fun m fuel hfuel => h.session_runs m hfuel, ?_⟩
  obtain ⟨N, hN, hleft⟩ := h.exists_left_page
  refine ⟨N, hN, fun m hm => ?_⟩
  have hinf := h.infinite_throws
  have hm' : N ≤ pieces CPU.runCycle self m := Nat.le_trans hm (le_pieces hinf m)
  have hnth : N ≤ Nat.nth (Throws CPU.runCycle self) m := Nat.le_trans hm' (pieces_le_nth hinf m)
  have hnext : N ≤ pieces CPU.runCycle self (m + 1) := Nat.le_succ_of_le hnth
  have hone : pieces CPU.runCycle self (m + 1) = pieces CPU.runCycle self m + 1 :=
    congrArg (· + 1) (nth_eq_pieces hinf (hleft _ hm').1)
  exact ⟨hone, (hleft _ hnth).2.1, (hleft _ hnext).2.2.trans (hleft _ hm').2.2.symm⟩

/-- `addi x1, x0, 5`, a word that is no instruction, `addi x2, x0, 42` and the
end, in four words of memory. -/
def bootTwice : CPU :=
  .boot 16 ⟨0, 0, 0⟩ (leBytes [0x00500093, 0x00000000, 0x02A00113, 0x0000006F])

/-- Its first run is ended by the word that is no instruction, its second by
the end, and its third has left memory. -/
theorem session_resumes_three :
    (List.range 3).map (fun i => bootTwice.replyAt (Nat.nth (Throws CPU.runCycle bootTwice) i)) =
      [.thrown .exception, .returned, .thrown .exception] := by
  have hboot : CPU.Attainable 16 ⟨0, 0, 0⟩ bootTwice := .loadProgram (.contents _) .new
  have hsession := (session_resumes hboot).1 3 1025 (by decide)
  have hreplies : (CPU.session 1025 (List.replicate 3 .run) bootTwice).map Prod.fst =
      some [.thrown .exception, .returned, .thrown .exception] := by decide +kernel
  rw [hsession] at hreplies
  exact Option.some.inj hreplies

end VirtuV
