import VirtuV.Cycle

/-!
# VirtuV.ExecutePermission

Where a cycle stands with the execute permission of the page it fetches from.

The fetch reads its word as data: the MMU asks for the read permission, and
`is_executable` is never called.  So a cycle on a page that is not executable
is stopped only where the read itself fails.
-/

namespace VirtuV

open Stateful

namespace Pipeline

/-- The pages of the four addresses from `pc` on, so far as they have entries,
are executable in the mode of the machine. -/
def Executable (s : Pipeline) : Prop :=
  ∀ k < 4, ∀ e,
    s.mmu.pageTable.entries ((s.registerBank.pc + BitVec.ofNat 32 k) &&& 0xFFFFF000) = some e →
      e.isExecutable s.mmu.privilegeMode = true

/-- One of the four bytes from `pc` on cannot be read: its page is not mapped
or not readable, or its physical address is out of range. -/
def FetchFails (s : Pipeline) : Prop :=
  ∃ k < 4, ¬ s.mmu.Reaches false (s.registerBank.pc + BitVec.ofNat 32 k)

/-- The cycle throws and changes no register, not `pc` and no memory. -/
def Refuses (s : Pipeline) : Prop :=
  (∃ e, outcome (runCycle.run s) = .error e) ∧
    (final (runCycle.run s)).registerBank = s.registerBank ∧
    (final (runCycle.run s)).mmu.physicalMemory = s.mmu.physicalMemory

theorem fetchFails_iff (s : Pipeline) :
    s.FetchFails ↔ ∀ w, s.mmu.readWord s.registerBank.pc ≠ .ok w := by
  have hok := MMU.readWord_ok_iff_reaches s.mmu s.registerBank.pc
  constructor
  · rintro ⟨k, hk, hn⟩ w hw
    exact hn (hok.mp ⟨w, hw⟩ k hk)
  · intro h
    by_contra hno
    obtain ⟨w, hw⟩ := hok.mpr fun k hk => by
      by_contra hn
      exact hno ⟨k, hk, hn⟩
    exact h w hw

/-- A cycle refuses exactly when its fetch fails: once the word is fetched,
`pc` has moved. -/
theorem refuses_iff (s : Pipeline) : s.Refuses ↔ s.FetchFails := by
  rw [fetchFails_iff]
  cases hread : s.mmu.readWord s.registerBank.pc with
  | ok w =>
      have hpc := pc_runCycle_of_fetch hread
      constructor
      · rintro ⟨-, hbank, -⟩
        rw [hbank] at hpc
        have hzero : (4 : Word) = 0 := BitVec.self_eq_add_right.mp hpc
        contradiction
      · exact fun h => absurd rfl (h w)
  | error e =>
      obtain ⟨s', hrun, hcore⟩ := runCycle_of_fetch_error hread
      have hbank := congrArg Core.registerBank hcore
      have hmmu := congrArg Core.mmu hcore
      constructor
      · intro _ w h
        contradiction
      · intro _
        rw [Refuses, hrun]
        exact ⟨⟨e, rfl⟩, hbank, congrArg MMU.physicalMemory hmmu⟩

end Pipeline

/-- **Execute permission**: on pages not all executable a cycle throws with
registers, `pc` and memory unchanged exactly when the fetch cannot read them;
and a run in which every such fetch fails executes no word from them. -/
theorem runCycle_executePermission (s : Pipeline) :
    (¬ s.Executable → (s.Refuses ↔ s.FetchFails)) ∧
    (∀ n,
      (∀ k < n, ¬ (after Pipeline.runCycle k s).Executable →
        (after Pipeline.runCycle k s).FetchFails) ↔
      (∀ k < n, ∀ w, (after Pipeline.runCycle k s).mmu.readWord
          (after Pipeline.runCycle k s).registerBank.pc = .ok w →
        (after Pipeline.runCycle k s).Executable)) := by
  refine ⟨fun _ => s.refuses_iff, fun n => ?_⟩
  constructor
  · intro h k hk w hw
    by_contra hno
    exact (Pipeline.fetchFails_iff _).mp (h k hk hno) w hw
  · intro h k hk hno
    exact (Pipeline.fetchFails_iff _).mpr fun w hw => hno (h k hk w hw)

/-- `addi x1, x0, 5` at address 0, on a page that is valid and readable alone. -/
def readOnlyPage : Pipeline :=
  .new .new ⟨⟨[0x93, 0x00, 0x50, 0x00]⟩, PageTable.new.addEntry 0 ⟨0x3⟩, .machine⟩ ⟨0, 0, 0⟩

/-- It is executed. -/
theorem runCycle_executes_readOnlyPage :
    ¬ readOnlyPage.Executable ∧
    outcome (Pipeline.runCycle.run readOnlyPage) = .ok () ∧
    (final (Pipeline.runCycle.run readOnlyPage)).registerBank.x 1 = 5 ∧
    ¬ ∀ s : Pipeline, ¬ s.Executable → s.Refuses := by
  have hno : ¬ readOnlyPage.Executable := by
    intro h
    have hbit := h 0 (by decide) ⟨0x3⟩ (by decide +kernel)
    revert hbit
    decide
  have hok : outcome (Pipeline.runCycle.run readOnlyPage) = .ok () := by decide +kernel
  refine ⟨hno, hok, by decide +kernel, fun h => ?_⟩
  obtain ⟨⟨e, he⟩, -⟩ := h readOnlyPage hno
  rw [hok] at he
  contradiction

end VirtuV
