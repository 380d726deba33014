import VirtuV.Integrity
import VirtuV.Store

/-!
# VirtuV.Frame

What one cycle does not change, however it ends.

The register bank changes in two places only: `pc` moves on once the word is
fetched, and the destination is written at the very end, which a cycle that
throws does not reach.  Memory changes in the word write of a store alone.
-/

namespace VirtuV

open Stateful
open Rv32i (opcode rd)

/-- The formats with a destination register: R, I, U and J. -/
def WritesRd (w : Word) : Prop :=
  opcode w = 0x33 ∨ opcode w = 0x13 ∨ opcode w = 0x37 ∨ opcode w = 0x6F

/-! ## the register bank -/

namespace Core

variable {w : Word} {c : Core}

/-- A word of another format leaves the register bank alone: the bits where a
destination would be are never looked at. -/
theorem registerBank_finish_of_not_writesRd (h : ¬ WritesRd w) :
    (final ((finish w).run c)).registerBank = c.registerBank := by
  rcases opcode_cases w with hop | hop | hop | hop | hop | hop | hop
  · exact absurd (.inl hop) h
  · exact absurd (.inr (.inl hop)) h
  · rw [run_finish_store c hop, final_zoom]
    rfl
  · cases ht : takesB w c.x with
    | some taken => rw [run_finish_branch c hop ht]; rfl
    | none => rw [run_finish_branch_error c hop ht]; rfl
  · exact absurd (.inr (.inr (.inl hop))) h
  · exact absurd (.inr (.inr (.inr hop))) h
  · rw [run_finish_unsupported c hop]
    rfl

/-- The rest of a cycle changes no register but the destination. -/
theorem x_finish_of_ne {r : BitVec 5} (h : ¬ (r = rd w ∧ rd w ≠ 0)) :
    (final ((finish w).run c)).x r = c.x r := by
  rcases finish_cases w c with ⟨v, result, hrun⟩ | ⟨result, hrun⟩ | ⟨e, result, -, hrun⟩ | ⟨-, hrun⟩
  · rw [hrun]
    refine (RegisterBank.setX_x _ _ _ _).trans ?_
    rw [if_neg h]
    rfl
  · rw [hrun]; rfl
  · rw [hrun]; rfl
  · rw [hrun, final_zoom]; rfl

/-- A throw leaves the register bank as the fetch did. -/
theorem registerBank_finish_of_error {e : Exception} (h : outcome ((finish w).run c) = .error e) :
    (final ((finish w).run c)).registerBank = c.registerBank := by
  rcases finish_cases w c with ⟨v, result, hrun⟩ | ⟨result, hrun⟩ | ⟨e, result, -, hrun⟩ | ⟨-, hrun⟩
  · rw [hrun] at h; contradiction
  · rw [hrun] at h; contradiction
  · rw [hrun]; rfl
  · rw [hrun, final_zoom]; rfl

/-- Only a store touches the MMU. -/
theorem mmu_finish_of_not_store (h : opcode w ≠ 0x23) :
    (final ((finish w).run c)).mmu = c.mmu := by
  rcases finish_cases w c with ⟨v, result, hrun⟩ | ⟨result, hrun⟩ | ⟨e, result, -, hrun⟩ | ⟨hop, -⟩
  · rw [hrun]; rfl
  · rw [hrun]; rfl
  · rw [hrun]; rfl
  · exact absurd hop h

end Core

/-! ## memory -/

/-- Every byte in which `mmu'` differs from `mmu` is one that the first `n`
addresses from `va` on translate to for writing. -/
def MMU.WrittenWithin (mmu mmu' : MMU) (va : Word) (n : Nat) : Prop :=
  ∀ a, mmu'.physicalMemory.memory[a]? ≠ mmu.physicalMemory.memory[a]? →
    ∃ k < n, ∃ pa, mmu.translateAddress (va + BitVec.ofNat 32 k) true = .ok pa ∧ pa.toNat = a

theorem MMU.BytesStored.writtenWithin {mmu mmu' : MMU} {va w : Word} {n : Nat}
    (h : mmu.BytesStored mmu' va w n) : mmu.WrittenWithin mmu' va n := by
  intro a ha
  by_contra hnone
  apply ha
  apply h.frame
  intro k hk pa hpa heq
  exact hnone ⟨k, hk, pa, hpa, heq⟩

/-- The word write that throws at the byte `k` has stayed within those before it. -/
theorem MMU.Torn.exists_writtenWithin {mmu mmu' : MMU} {va w : Word} (h : mmu.Torn mmu' va w) :
    ∃ k < 4, (¬ ∃ pa, mmu.translateAddress (va + BitVec.ofNat 32 k) true = .ok pa ∧
      pa.toNat < mmu.physicalMemory.size) ∧ mmu.WrittenWithin mmu' va k := by
  obtain ⟨k, hk, -, hstop, hstored, -⟩ := h
  exact ⟨k, hk, hstop, hstored.writtenWithin⟩

/-! ## one cycle -/

namespace Pipeline

variable {s s' : Pipeline} {w : Word}

/-- The memory a cycle leaves is the one it found, unless its word is a store. -/
theorem mmu_runCycle_of_not_store (hfetch : s.mmu.readWord s.registerBank.pc = .ok w)
    (hop : opcode w ≠ 0x23) : (final (runCycle.run s)).mmu = s.mmu :=
  (congrArg Core.mmu (core_runCycle_of_fetch hfetch)).trans (Core.mmu_finish_of_not_store hop)

/-- What a cycle that throws on a fetched word has changed. -/
theorem frame_of_error {e : Exception} (hfetch : s.mmu.readWord s.registerBank.pc = .ok w)
    (hrun : runCycle.run s = .error e s') :
    s'.registerBank = s.registerBank.setPc (s.registerBank.pc + 4) ∧
    (s'.mmu.physicalMemory = s.mmu.physicalMemory ∨
      opcode w = 0x23 ∧ ∃ k < 4,
        (¬ ∃ pa, s.mmu.translateAddress (storeAddress w s.registerBank.x + BitVec.ofNat 32 k) true =
          .ok pa ∧ pa.toNat < s.mmu.physicalMemory.size) ∧
        s.mmu.WrittenWithin s'.mmu (storeAddress w s.registerBank.x) k) := by
  have hout := outcome_runCycle_of_fetch hfetch
  have hcore := core_runCycle_of_fetch hfetch
  rw [hrun] at hout hcore
  constructor
  · exact (congrArg Core.registerBank hcore).trans (Core.registerBank_finish_of_error hout.symm)
  · by_cases hop : opcode w = 0x23
    · have htorn := torn_runCycle hfetch hop (by rw [hrun, outcome_error])
      rw [hrun] at htorn
      exact .inr ⟨hop, htorn.exists_writtenWithin⟩
    · have hmmu := mmu_runCycle_of_not_store hfetch hop
      rw [hrun] at hmmu
      exact .inl (congrArg MMU.physicalMemory hmmu)

/-- What a cycle that returns has changed. -/
theorem frame_of_ok (hfetch : s.mmu.readWord s.registerBank.pc = .ok w)
    (hrun : runCycle.run s = .ok () s') :
    (∀ r, s'.registerBank.x r ≠ s.registerBank.x r → r = rd w ∧ rd w ≠ 0 ∧ WritesRd w) ∧
    (s'.mmu.physicalMemory ≠ s.mmu.physicalMemory → opcode w = 0x23) ∧
    s.mmu.WrittenWithin s'.mmu (storeAddress w s.registerBank.x) 4 := by
  have hcore := core_runCycle_of_fetch hfetch
  rw [hrun, final_ok] at hcore
  have hx : s'.registerBank.x = (final ((Core.finish w).run s.core.advance)).x :=
    congrArg Core.x hcore
  have hkeep : opcode w ≠ 0x23 → s'.mmu = s.mmu := by
    intro hop
    have hmmu := mmu_runCycle_of_not_store hfetch hop
    rwa [hrun] at hmmu
  refine ⟨fun r hr => ?_, fun hmem => ?_, ?_⟩
  · rw [hx] at hr
    have hrd : r = rd w ∧ rd w ≠ 0 := by
      by_contra hne
      exact hr (Core.x_finish_of_ne hne)
    refine ⟨hrd.1, hrd.2, ?_⟩
    by_contra hformat
    have hbank := Core.registerBank_finish_of_not_writesRd (c := s.core.advance) hformat
    exact hr (congrFun (congrArg RegisterBank.x hbank) r)
  · by_contra hop
    exact hmem (congrArg MMU.physicalMemory (hkeep hop))
  · by_cases hop : opcode w = 0x23
    · obtain ⟨hout, hmmu, -⟩ := runCycle_of_store hfetch hop
      rw [hrun, outcome_ok] at hout
      rw [hrun, final_ok] at hmmu
      rw [hmmu]
      exact (MMU.bytesStored_of_writeWord (eq_ok_of_outcome hout.symm)).writtenWithin
    · rw [hkeep hop]
      exact fun a ha => absurd rfl ha

end Pipeline

/-- **Frame of a cycle**: a cycle that throws has changed no register; if it
could not fetch it has changed nothing, and else `pc` is past the word and
memory is as it was, but for bytes that a store wrote before the one it could
not write.  A cycle that returns has changed at most the destination, if the
format has one and it is not `x0`, and, if the word is a store, the four bytes
it stores to.  Page table, mode and size of memory never change. -/
theorem runCycle_frame (s : Pipeline) :
    (∀ e s', Pipeline.runCycle.run s = .error e s' →
      s'.registerBank.registers = s.registerBank.registers ∧ s.mmu.SameLayout s'.mmu ∧
      ((∃ e', s.mmu.readWord s.registerBank.pc = .error e') →
        s'.registerBank.pc = s.registerBank.pc ∧
        s'.mmu.physicalMemory = s.mmu.physicalMemory) ∧
      (∀ w, s.mmu.readWord s.registerBank.pc = .ok w →
        s'.registerBank.pc = s.registerBank.pc + 4 ∧
        (s'.mmu.physicalMemory = s.mmu.physicalMemory ∨
          opcode w = 0x23 ∧ ∃ k < 4,
            (¬ ∃ pa, s.mmu.translateAddress
              (storeAddress w s.registerBank.x + BitVec.ofNat 32 k) true = .ok pa ∧
              pa.toNat < s.mmu.physicalMemory.size) ∧
            s.mmu.WrittenWithin s'.mmu (storeAddress w s.registerBank.x) k))) ∧
    (∀ s', Pipeline.runCycle.run s = .ok () s' →
      s.mmu.SameLayout s'.mmu ∧ ∃ w, s.mmu.readWord s.registerBank.pc = .ok w ∧
        (∀ r, s'.registerBank.x r ≠ s.registerBank.x r → r = rd w ∧ rd w ≠ 0 ∧ WritesRd w) ∧
        (s'.mmu.physicalMemory ≠ s.mmu.physicalMemory → opcode w = 0x23) ∧
        s.mmu.WrittenWithin s'.mmu (storeAddress w s.registerBank.x) 4) := by
  have hlayout := Pipeline.rel_runCycle MMU.keeps_layout s
  constructor
  · intro e s' hrun
    rw [hrun, final_error] at hlayout
    cases hread : s.mmu.readWord s.registerBank.pc with
    | ok w =>
        obtain ⟨hbank, hmem⟩ := Pipeline.frame_of_error hread hrun
        refine ⟨?_, hlayout, ?_, ?_⟩
        · rw [hbank]; rfl
        · rintro ⟨e', he'⟩
          contradiction
        · intro w' hw'
          obtain rfl := Except.ok.inj hw'
          exact ⟨congrArg RegisterBank.pc hbank, hmem⟩
    | error e' =>
        obtain ⟨s'', hrun', hcore⟩ := Pipeline.runCycle_of_fetch_error hread
        rw [hrun] at hrun'
        obtain ⟨-, rfl⟩ := EStateM.Result.error.inj hrun'
        have hbank : s'.registerBank = s.registerBank := congrArg Core.registerBank hcore
        have hmmu : s'.mmu = s.mmu := congrArg Core.mmu hcore
        refine ⟨congrArg RegisterBank.registers hbank, hlayout, ?_, ?_⟩
        · exact fun _ => ⟨congrArg RegisterBank.pc hbank, congrArg MMU.physicalMemory hmmu⟩
        · intro w hw
          contradiction
  · intro s' hrun
    rw [hrun, final_ok] at hlayout
    have hfetch := Pipeline.fetch_of_runCycle_ok (s := s) (by rw [hrun, outcome_ok])
    exact ⟨hlayout, s.word, hfetch, Pipeline.frame_of_ok hfetch hrun⟩

end VirtuV
