import VirtuV.Cycle

/-!
# VirtuV.Jump

The two things a jump does: it links, and a jump by nothing ends the program.

Neither is done by its target.  The link register gets the `alu_result` of an
earlier cycle, which execute does not overwrite for a jump.  The end of a
program is detected by comparing the target with the `pc` it was computed from,
so exactly when the decoded offset is zero, and of all the exceptions a cycle
can raise only this one makes `run` return.
-/

namespace VirtuV

open Stateful
open Rv32i (opcode rd funct3 SplitFormat)

/-! ## the link register -/

/-- The link register of a jump that completes holds the address after it, and
every other register what it held. -/
def Pipeline.Links (s : Pipeline) (w : Word) : Prop :=
  outcome (runCycle.run s) = .ok () → ∀ r, (final (runCycle.run s)).registerBank.x r =
    if r = rd w ∧ rd w ≠ 0 then s.registerBank.pc + 4 else s.registerBank.x r

/-- **The link register**: a jump links exactly when it ends the program, has
no destination, or finds the address after it in the `alu_result` of an earlier
cycle. -/
theorem runCycle_links_iff (s : Pipeline) (w : Word)
    (hfetch : s.mmu.readWord s.registerBank.pc = .ok w) (hop : opcode w = 0x6F) :
    s.Links w ↔ getImmediateJ ⟨w⟩ = 0 ∨ rd w = 0 ∨
      s.executeStage.result.aluResult = s.registerBank.pc + 4 := by
  have hout := Pipeline.outcome_runCycle_of_fetch hfetch
  have hcore := Pipeline.core_runCycle_of_fetch hfetch
  unfold Pipeline.Links
  by_cases hi : getImmediateJ ⟨w⟩ = 0
  · rw [Core.run_finish_jump_end _ hop hi] at hout
    rw [hout]
    exact ⟨fun _ => .inl hi, fun _ h => by contradiction⟩
  · rw [Core.run_finish_jump _ hop hi] at hout hcore
    have hx : ∀ r, (final (Pipeline.runCycle.run s)).registerBank.x r =
        if r = rd w ∧ rd w ≠ 0 then s.executeStage.result.aluResult else s.registerBank.x r := by
      intro r
      have hbank := congrArg Core.x hcore
      exact (congrFun hbank r).trans (RegisterBank.setX_x _ _ _ _)
    constructor
    · intro h
      by_cases hrd : rd w = 0
      · exact .inr (.inl hrd)
      · have hlink := h hout (rd w)
        rw [hx, if_pos ⟨rfl, hrd⟩, if_pos ⟨rfl, hrd⟩] at hlink
        exact .inr (.inr hlink)
    · rintro h - r
      rw [hx]
      rcases h with h | h | h
      · exact absurd h hi
      · rw [if_neg fun hr => hr.2 h, if_neg fun hr => hr.2 h]
      · rw [h]

/-- `jal x0, 8` has no destination. -/
theorem runCycle_links_iff_x0 :
    (CPU.boot 8 ⟨0, 0, 0⟩ [0x6F, 0x00, 0x80, 0x00]).pipeline.Links 0x0080006F :=
  (runCycle_links_iff _ _ (by decide +kernel) (by decide)).mpr (.inr (.inl (by decide)))

/-- A fresh CPU that loaded `addi x0, x0, 5` and `jal x1, 8` and has run the
first. -/
def linkAfterFive : Pipeline :=
  final (Pipeline.runCycle.run (CPU.boot 8 ⟨0, 0, 0⟩
    [0x13, 0x00, 0x50, 0x00, 0xEF, 0x00, 0x80, 0x00]).pipeline)

/-- The jump, at address 4, links 5 instead of 8. -/
theorem runCycle_links_five :
    linkAfterFive.registerBank.pc = 4 ∧
    outcome (Pipeline.runCycle.run linkAfterFive) = .ok () ∧
    (final (Pipeline.runCycle.run linkAfterFive)).registerBank.x 1 = 5 ∧
    ¬ ∀ (s : Pipeline) w, s.mmu.readWord s.registerBank.pc = .ok w → opcode w = 0x6F →
      s.Links w := by
  have hpc : linkAfterFive.registerBank.pc = 4 := by decide +kernel
  have hout : outcome (Pipeline.runCycle.run linkAfterFive) = .ok () := by decide +kernel
  have hx : (final (Pipeline.runCycle.run linkAfterFive)).registerBank.x 1 = 5 := by
    decide +kernel
  refine ⟨hpc, hout, hx, fun h => ?_⟩
  have hlink := h linkAfterFive 0x008000EF (by decide +kernel) (by decide) hout 1
  rw [hx, hpc] at hlink
  revert hlink
  decide

/-! ## the end of a program -/

/-- The bits 31 to 12 of a word, field by field of a jump. -/
theorem toNat_jumpBits (w : Word) : (w.extractLsb' 12 20).toNat =
    (w.extractLsb' 31 1).toNat * 2 ^ 19 + (w.extractLsb' 21 10).toNat * 2 ^ 9 +
      (w.extractLsb' 20 1).toNat * 2 ^ 8 + (w.extractLsb' 12 8).toNat := by
  simp only [BitVec.extractLsb'_toNat, Nat.shiftRight_eq_div_pow]
  omega

/-- The offset of a jump is zero exactly when its bits 31 to 12 are. -/
theorem jumpOffset_eq_zero_iff (w : Word) :
    SplitFormat.offset .jump w = 0 ↔ w.extractLsb' 12 20 = 0 := by
  have hbits := toNat_offsetBits_jump w
  have hfields := toNat_jumpBits w
  rw [← toInt_eq_zero_iff, toInt_offset, toInt_eq_zero_iff, ← BitVec.toNat_inj,
    ← BitVec.toNat_inj (x := w.extractLsb' 12 20)]
  simp only [BitVec.ofNat_eq_ofNat, BitVec.toNat_ofNat, Nat.zero_mod]
  omega

/-- Fields laid over each other are zero exactly when each of them is, so the
offset decoded from a jump is zero exactly when its bits 31 to 12 are. -/
theorem getImmediateJ_eq_zero_iff (w : Word) :
    getImmediateJ ⟨w⟩ = 0 ↔ w.extractLsb' 12 20 = 0 := by
  have hfields := toNat_jumpBits w
  have hover := toNat_getImmediateJ w
  rw [← BitVec.toNat_inj, hover, ← BitVec.toNat_inj]
  simp only [BitVec.ofNat_eq_ofNat, BitVec.toNat_ofNat, Nat.zero_mod, Nat.or_eq_zero_iff]
  omega

/-- A jump whose RV32I offset is zero. -/
def JumpToSelf (w : Word) : Prop := opcode w = 0x6F ∧ SplitFormat.offset .jump w = 0

instance (w : Word) : Decidable (JumpToSelf w) := inferInstanceAs (Decidable (_ ∧ _))

theorem jumpToSelf_iff (w : Word) : JumpToSelf w ↔ opcode w = 0x6F ∧ getImmediateJ ⟨w⟩ = 0 := by
  rw [JumpToSelf, jumpOffset_eq_zero_iff, getImmediateJ_eq_zero_iff]

/-- A program's end, as an exception. -/
def Exception.IsEndOfProgram (e : Exception) : Prop := ∃ msg, e = .endOfProgramException msg

/-- No memory fault is the end of a program. -/
theorem Exception.MemoryFault.not_isEndOfProgram {e : Exception} (h : e.MemoryFault) :
    ¬ e.IsEndOfProgram := by
  rintro ⟨msg, rfl⟩
  exact h

/-- Nor is any rejected argument. -/
theorem Exception.not_isEndOfProgram_invalidArgument (msg : String) :
    ¬ (invalidArgument msg).IsEndOfProgram := by
  rintro ⟨msg', h⟩
  contradiction

namespace Core

/-- The rest of a cycle ends the program exactly for a jump to itself. -/
theorem endOfProgram_finish_iff (w : Word) (c : Core) :
    (∃ e, outcome ((finish w).run c) = .error e ∧ e.IsEndOfProgram) ↔ JumpToSelf w := by
  rw [jumpToSelf_iff]
  constructor
  · rintro ⟨e, he, hend⟩
    rcases opcode_cases w with h | h | h | h | h | h | h
    · by_cases hf : funct3 w = 0
      · rw [run_finish_reg c h (if_pos hf)] at he
        contradiction
      · rw [run_finish_reg_error c h hf] at he
        obtain rfl := Except.error.inj he
        exact absurd hend (Exception.not_isEndOfProgram_invalidArgument _)
    · rw [run_finish_imm c h] at he
      contradiction
    · -- a store throws what its word write throws, a memory fault
      rw [run_finish_store c h, outcome_zoom] at he
      exact absurd hend (MMU.memoryFault_of_writeWord he).not_isEndOfProgram
    · cases ht : takesB w c.x with
      | some taken =>
          rw [run_finish_branch c h ht] at he
          contradiction
      | none =>
          rw [run_finish_branch_error c h ht] at he
          obtain rfl := Except.error.inj he
          exact absurd hend (Exception.not_isEndOfProgram_invalidArgument _)
    · rw [run_finish_upper c h] at he
      contradiction
    · by_cases hi : getImmediateJ ⟨w⟩ = 0
      · exact ⟨h, hi⟩
      · rw [run_finish_jump c h hi] at he
        contradiction
    · rw [run_finish_unsupported c h] at he
      obtain rfl := Except.error.inj he
      exact absurd hend (Exception.not_isEndOfProgram_invalidArgument _)
  · rintro ⟨h, hi⟩
    rw [run_finish_jump_end c h hi]
    exact ⟨_, rfl, _, rfl⟩

end Core

namespace Pipeline

/-- The word at `pc` can be fetched and is a jump to itself. -/
def AtEnd (s : Pipeline) : Prop := ∃ w, s.mmu.readWord s.registerBank.pc = .ok w ∧ JumpToSelf w

theorem atEnd_iff_of_fetch {s : Pipeline} {w : Word}
    (h : s.mmu.readWord s.registerBank.pc = .ok w) : s.AtEnd ↔ JumpToSelf w := by
  constructor
  · rintro ⟨w', hw', hjump⟩
    rw [h] at hw'
    obtain rfl := Except.ok.inj hw'
    exact hjump
  · exact fun hjump => ⟨w, h, hjump⟩

theorem not_atEnd_of_fetch_error {s : Pipeline} {e : Exception}
    (h : s.mmu.readWord s.registerBank.pc = .error e) : ¬ s.AtEnd := by
  rintro ⟨w, hw, -⟩
  rw [h] at hw
  contradiction

/-- **One cycle** ends the program exactly on a jump to itself. -/
theorem endOfProgram_runCycle_iff (s : Pipeline) :
    (∃ e, outcome (runCycle.run s) = .error e ∧ e.IsEndOfProgram) ↔ s.AtEnd := by
  rcases MMU.readWord_cases s.mmu s.registerBank.pc with ⟨w, hw, -⟩ | ⟨e', hfault, he', -⟩
  · rw [outcome_runCycle_of_fetch hw, Core.endOfProgram_finish_iff, atEnd_iff_of_fetch hw]
  · obtain ⟨s', hrun, -⟩ := runCycle_of_fetch_error he'
    rw [hrun]
    constructor
    · rintro ⟨e, he, hend⟩
      obtain rfl := Except.error.inj he
      exact absurd hend hfault.not_isEndOfProgram
    · exact fun hend => absurd hend (not_atEnd_of_fetch_error he')

end Pipeline

namespace CPU

/-- **The run loop**: it stops with the exception of the first cycle that
throws. -/
theorem runLoop_eq_some_iff (fuel : Nat) (self self' : CPU) (e : Exception) :
    runLoop fuel self = some (e, self') ↔
      ∃ n < fuel, Completes runCycle n self ∧ runCycle.run (after runCycle n self) = .error e self' := by
  induction fuel generalizing self with
  | zero => simp [runLoop]
  | succ fuel ih =>
      rw [runLoop]
      cases hrun : runCycle.run self with
      | ok _ next =>
          have hnext : final (runCycle.run self) = next := by rw [hrun, final_ok]
          rw [ih]
          constructor
          · rintro ⟨n, hn, hall, hlast⟩
            refine ⟨n + 1, Nat.succ_lt_succ hn, ?_, ?_⟩
            · rw [completes_succ, hnext]
              exact ⟨⟨(), by rw [hrun, outcome_ok]⟩, hall⟩
            · rw [after_succ', hnext]
              exact hlast
          · rintro ⟨n, hn, hall, hlast⟩
            cases n with
            | zero =>
                rw [after_zero, hrun] at hlast
                contradiction
            | succ n =>
                rw [completes_succ, hnext] at hall
                rw [after_succ', hnext] at hlast
                exact ⟨n, Nat.lt_of_succ_lt_succ hn, hall.2, hlast⟩
      | error e' last =>
          constructor
          · rintro h
            obtain ⟨rfl, rfl⟩ := Prod.mk.inj (Option.some.inj h)
            exact ⟨0, Nat.succ_pos fuel, fun k hk => absurd hk (Nat.not_lt_zero k), hrun⟩
          · rintro ⟨n, hn, hall, hlast⟩
            cases n with
            | zero =>
                rw [after_zero, hrun] at hlast
                obtain ⟨rfl, rfl⟩ := EStateM.Result.error.inj hlast
                rfl
            | succ n =>
                obtain ⟨⟨a, ha⟩, -⟩ := (completes_succ runCycle n self).mp hall
                rw [hrun] at ha
                contradiction

/-- `run` returns exactly when the exception its loop stopped with is the end
of a program. -/
theorem run_eq_ok_iff (fuel : Nat) (self self' : CPU) :
    self.run fuel = some (.ok () self') ↔
      ∃ e, runLoop fuel self = some (e, self') ∧ e.IsEndOfProgram := by
  unfold run
  cases runLoop fuel self with
  | none => simp
  | some p =>
      obtain ⟨e, last⟩ := p
      cases e <;> simp [Exception.IsEndOfProgram]

end CPU

/-- A cycle of the CPU ends the program exactly on a jump to itself. -/
theorem CPU.endOfProgram_runCycle_iff (self : CPU) :
    (∃ e self', CPU.runCycle.run self = .error e self' ∧ e.IsEndOfProgram) ↔
      self.pipeline.AtEnd := by
  rw [CPU.runCycle_throws_iff, Pipeline.endOfProgram_runCycle_iff]

/-- **The end of a program**: a cycle throws the end of the program exactly
when the word it fetches is a jump to itself, that is a jump whose bits 31 to
12 are zero; and `run` returns exactly when the first cycle that does not
complete has fetched one. -/
theorem run_endOfProgram (s : Pipeline) (self : CPU) :
    (∀ w, s.mmu.readWord s.registerBank.pc = .ok w →
      ((∃ e, outcome (Pipeline.runCycle.run s) = .error e ∧ e.IsEndOfProgram) ↔ JumpToSelf w)) ∧
    (∀ e, s.mmu.readWord s.registerBank.pc = .error e →
      ¬ ∃ e', outcome (Pipeline.runCycle.run s) = .error e' ∧ e'.IsEndOfProgram) ∧
    (∀ w, JumpToSelf w ↔ opcode w = 0x6F ∧ w.extractLsb' 12 20 = 0) ∧
    (∀ fuel self', self.run fuel = some (.ok () self') ↔
      ∃ n < fuel, Completes CPU.runCycle n self ∧
        (after CPU.runCycle n self).pipeline.AtEnd ∧ self' = after CPU.runCycle (n + 1) self) := by
  refine ⟨fun w hw => ?_, fun e he => ?_, fun w => ?_, fun fuel self' => ?_⟩
  · rw [Pipeline.endOfProgram_runCycle_iff, Pipeline.atEnd_iff_of_fetch hw]
  · rw [Pipeline.endOfProgram_runCycle_iff]
    exact Pipeline.not_atEnd_of_fetch_error he
  · rw [JumpToSelf, jumpOffset_eq_zero_iff]
  · rw [CPU.run_eq_ok_iff]
    constructor
    · rintro ⟨e, hloop, hend⟩
      obtain ⟨n, hn, hall, hlast⟩ := (CPU.runLoop_eq_some_iff fuel self self' e).mp hloop
      refine ⟨n, hn, hall, (CPU.endOfProgram_runCycle_iff _).mp ⟨e, self', hlast, hend⟩, ?_⟩
      rw [after_succ, hlast, final_error]
    · rintro ⟨n, hn, hall, hend, rfl⟩
      obtain ⟨e, last, hlast, hise⟩ := (CPU.endOfProgram_runCycle_iff _).mpr hend
      refine ⟨e, (CPU.runLoop_eq_some_iff fuel self _ e).mpr ⟨n, hn, hall, ?_⟩, hise⟩
      rw [after_succ, hlast, final_error]

end VirtuV
