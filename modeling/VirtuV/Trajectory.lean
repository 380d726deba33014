import VirtuV.Fault
import VirtuV.Loader

/-!
# VirtuV.Trajectory

Where the fetches of a run go, however its cycles end.

No cycle changes which words can be read, and a cycle that fetches its word
leaves `pc` four further, whatever else becomes of it.  So the addresses of a
run are settled before its first cycle: one word after the other, up to the
first that cannot be read, where the machine stays.

* **the trajectory** — what `pc` is after any number of cycles;
* **runs without end** — they need every address of the address space;
* **the run loop** — of a CPU, which has one page, it ends.
-/

namespace VirtuV

open Stateful

/-! ## the trajectory -/

/-- The same words can be read in MMUs of one layout. -/
theorem MMU.SameLayout.wordReadable_iff {m m' : MMU} (h : m.SameLayout m') (va : Word) :
    m'.WordReadable va ↔ m.WordReadable va := by
  simp only [MMU.wordReadable_iff, h.reaches_iff]

namespace Pipeline

/-- The address of the word `k` words after the one at `pc`. -/
def ahead (s : Pipeline) (k : Nat) : Word := s.registerBank.pc + BitVec.ofNat 32 (4 * k)

theorem ahead_zero (s : Pipeline) : s.ahead 0 = s.registerBank.pc := BitVec.add_zero _

theorem ahead_succ (s : Pipeline) (k : Nat) : s.ahead (k + 1) = s.ahead k + 4 := by
  rw [ahead, ahead, ← ofNat_word_succ, BitVec.add_assoc]

/-- The first `n` words from `pc` on can be read. -/
def Fetchable (s : Pipeline) (n : Nat) : Prop := ∀ k < n, s.mmu.WordReadable (s.ahead k)

/-- Where not all of them can, there is a first that cannot. -/
theorem exists_not_readable {s : Pipeline} {n : Nat} (h : ¬ s.Fetchable n) :
    ∃ k < n, s.Fetchable k ∧ ¬ s.mmu.WordReadable (s.ahead k) := by
  induction n with
  | zero => exact absurd (fun k hk => absurd hk (Nat.not_lt_zero k)) h
  | succ n ih =>
      by_cases hn : s.Fetchable n
      · exact ⟨n, Nat.lt_succ_self n, hn,
          fun hread => h (Nat.forall_lt_succ_right.mpr ⟨hn, hread⟩)⟩
      · obtain ⟨k, hk, hfirst⟩ := ih hn
        exact ⟨k, Nat.lt_succ_of_lt hk, hfirst⟩

/-- No cycle changes the layout of the MMU. -/
theorem sameLayout_after (s : Pipeline) (n : Nat) : s.mmu.SameLayout (after runCycle n s).mmu :=
  Keeps.after (f := mmu) (rel_runCycle MMU.keeps_layout) n s

/-- A cycle whose word can be read leaves `pc` four further. -/
theorem pc_runCycle_of_readable {s : Pipeline} (h : s.mmu.WordReadable s.registerBank.pc) :
    (final (runCycle.run s)).registerBank.pc = s.registerBank.pc + 4 := by
  rcases s.mmu.readWord_cases_readable s.registerBank.pc with ⟨w, hw, -⟩ | ⟨e, -, hnot⟩
  · exact pc_runCycle_of_fetch hw
  · exact absurd h hnot

/-- A cycle whose word cannot be read throws a memory fault and changes nothing
of the flat machine. -/
theorem runCycle_of_not_readable {s : Pipeline} (h : ¬ s.mmu.WordReadable s.registerBank.pc) :
    ∃ e : Exception, e.MemoryFault ∧ outcome (runCycle.run s) = .error e ∧
      (final (runCycle.run s)).core = s.core := by
  rcases s.mmu.readWord_cases s.registerBank.pc with ⟨w, hw, -⟩ | ⟨e, hfault, he, -⟩
  · exact absurd ((s.mmu.wordReadable_iff _).mpr ((s.mmu.readWord_ok_iff_reaches _).mp ⟨w, hw⟩)) h
  · obtain ⟨s', hrun, hcore⟩ := runCycle_of_fetch_error he
    rw [hrun]
    exact ⟨e, hfault, rfl, hcore⟩

/-- As far as the words can be read, `pc` goes through them one a cycle. -/
theorem pc_after_of_fetchable {s : Pipeline} {n : Nat} (h : s.Fetchable n) :
    (after runCycle n s).registerBank.pc = s.ahead n := by
  induction n with
  | zero => rw [ahead_zero]; rfl
  | succ n ih =>
      have hpc := ih fun k hk => h k (Nat.lt_succ_of_lt hk)
      have hread : (after runCycle n s).mmu.WordReadable (after runCycle n s).registerBank.pc := by
        rw [hpc, (s.sameLayout_after n).wordReadable_iff]
        exact h n (Nat.lt_succ_self n)
      rw [after_succ, pc_runCycle_of_readable hread, hpc, ahead_succ]

/-- What a cycle reports is decided by the flat machine. -/
theorem outcome_runCycle_congr {s t : Pipeline} (h : s.core = t.core) :
    outcome (runCycle.run s) = outcome (runCycle.run t) := by
  rw [(runCycle_core s _ rfl).1, (runCycle_core t _ rfl).1, h]

/-- At a word that cannot be read the machine stays, throwing the same memory
fault over and over. -/
theorem stuck_of_not_readable {s : Pipeline} (h : ¬ s.mmu.WordReadable s.registerBank.pc) :
    ∃ e : Exception, e.MemoryFault ∧ ∀ m, outcome (runCycle.run (after runCycle m s)) = .error e ∧
      (after runCycle m s).core = s.core := by
  have hstep : ∀ t : Pipeline, t.core = s.core → (final (runCycle.run t)).core = s.core := by
    intro t ht
    have hmmu : t.mmu = s.mmu := congrArg Core.mmu ht
    have hpc : t.registerBank.pc = s.registerBank.pc := congrArg Core.pc ht
    obtain ⟨-, -, -, hcore⟩ := runCycle_of_not_readable (s := t) (by rw [hmmu, hpc]; exact h)
    rw [hcore, ht]
  obtain ⟨e, hfault, he, -⟩ := runCycle_of_not_readable h
  refine ⟨e, hfault, fun m => ?_⟩
  have hcore := after_of_stuck hstep m
  exact ⟨by rw [outcome_runCycle_congr hcore, he], hcore⟩

/-- One cycle takes machines with the same layout and the same `pc` to the
same `pc`. -/
theorem pc_runCycle_congr {s t : Pipeline} (hlayout : s.mmu.SameLayout t.mmu)
    (hpc : t.registerBank.pc = s.registerBank.pc) :
    (final (runCycle.run t)).registerBank.pc = (final (runCycle.run s)).registerBank.pc := by
  have hiff := hlayout.wordReadable_iff s.registerBank.pc
  by_cases h : s.mmu.WordReadable s.registerBank.pc
  · rw [pc_runCycle_of_readable h, pc_runCycle_of_readable (by rw [hpc]; exact hiff.mpr h), hpc]
  · obtain ⟨-, -, -, hs⟩ := runCycle_of_not_readable h
    obtain ⟨-, -, -, ht⟩ := runCycle_of_not_readable (s := t) (by rw [hpc]; exact mt hiff.mp h)
    have hs' : (final (runCycle.run s)).registerBank.pc = s.registerBank.pc :=
      congrArg Core.pc hs
    have ht' : (final (runCycle.run t)).registerBank.pc = t.registerBank.pc :=
      congrArg Core.pc ht
    rw [hs', ht', hpc]

theorem pc_after_congr {s t : Pipeline} (hlayout : s.mmu.SameLayout t.mmu)
    (hpc : t.registerBank.pc = s.registerBank.pc) (n : Nat) :
    (after runCycle n t).registerBank.pc = (after runCycle n s).registerBank.pc := by
  induction n with
  | zero => exact hpc
  | succ n ih =>
      have hs := s.sameLayout_after n
      have ht := t.sameLayout_after n
      have hst : (after runCycle n s).mmu.SameLayout (after runCycle n t).mmu :=
        ⟨ht.pageTable.trans (hlayout.pageTable.trans hs.pageTable.symm),
          ht.privilegeMode.trans (hlayout.privilegeMode.trans hs.privilegeMode.symm),
          ht.size.trans (hlayout.size.trans hs.size.symm)⟩
      rw [after_succ, after_succ]
      exact pc_runCycle_congr hst ih

end Pipeline

/-- **The trajectory**: in a run that goes on after cycles that throw, `pc`
passes through the words from its start on, one a cycle, as far as they can be
read; at the first that cannot, every further cycle throws the same memory
fault and changes nothing.  So `pc` is the same after any number of cycles of
two machines with the same page table, mode, size of memory and `pc`, whatever
programs, registers and latches they have. -/
theorem runCycle_trajectory (s : Pipeline) (n : Nat) :
    (s.Fetchable n → (after Pipeline.runCycle n s).registerBank.pc = s.ahead n) ∧
    (s.Fetchable n → ¬ s.mmu.WordReadable (s.ahead n) → ∃ e : Exception, e.MemoryFault ∧
      ∀ m ≥ n, outcome (Pipeline.runCycle.run (after Pipeline.runCycle m s)) = .error e ∧
        (after Pipeline.runCycle m s).registerBank = (after Pipeline.runCycle n s).registerBank ∧
        (after Pipeline.runCycle m s).mmu = (after Pipeline.runCycle n s).mmu) ∧
    (∀ t : Pipeline, s.mmu.SameLayout t.mmu → t.registerBank.pc = s.registerBank.pc →
      (after Pipeline.runCycle n t).registerBank.pc =
        (after Pipeline.runCycle n s).registerBank.pc) := by
  refine ⟨Pipeline.pc_after_of_fetchable, fun hfetch hnot => ?_,
    fun t hlayout hpc => Pipeline.pc_after_congr hlayout hpc n⟩
  have hstop : ¬ (after Pipeline.runCycle n s).mmu.WordReadable
      (after Pipeline.runCycle n s).registerBank.pc := by
    rw [Pipeline.pc_after_of_fetchable hfetch, (s.sameLayout_after n).wordReadable_iff]
    exact hnot
  obtain ⟨e, hfault, hstuck⟩ := Pipeline.stuck_of_not_readable hstop
  refine ⟨e, hfault, fun m hm => ?_⟩
  obtain ⟨k, rfl⟩ := Nat.exists_eq_add_of_le hm
  obtain ⟨he, hcore⟩ := hstuck k
  rw [after_add]
  exact ⟨he, congrArg Core.registerBank hcore, congrArg Core.mmu hcore⟩

/-! ## runs without end -/

/-- Every address lies in one of the words from any `p` on. -/
theorem exists_word_of_address (p va : Word) :
    ∃ k, ∃ j < 4, va = p + BitVec.ofNat 32 (4 * k) + BitVec.ofNat 32 j := by
  refine ⟨(va - p).toNat / 4, (va - p).toNat % 4, Nat.mod_lt _ (by decide), ?_⟩
  have hsplit : 4 * ((va - p).toNat / 4) + (va - p).toNat % 4 = (va - p).toNat :=
    Nat.div_add_mod _ 4
  rw [BitVec.add_assoc, ← BitVec.ofNat_add, hsplit, BitVec.ofNat_toNat, BitVec.setWidth_eq,
    BitVec.add_comm, BitVec.sub_add_cancel]

namespace Pipeline

/-- The first `n` cycles fetch their words exactly where the first `n` words can
be read. -/
theorem fetchable_iff (s : Pipeline) (n : Nat) : s.Fetchable n ↔
    ∀ k < n, (after runCycle k s).mmu.WordReadable (after runCycle k s).registerBank.pc := by
  induction n with
  | zero =>
      exact ⟨fun _ k hk => absurd hk (Nat.not_lt_zero k),
        fun _ k hk => absurd hk (Nat.not_lt_zero k)⟩
  | succ n ih =>
      -- both sides grow by their word `n`, which is the same address
      have hword : s.Fetchable n → ((after runCycle n s).mmu.WordReadable
          (after runCycle n s).registerBank.pc ↔ s.mmu.WordReadable (s.ahead n)) := by
        intro h
        rw [pc_after_of_fetchable h, (s.sameLayout_after n).wordReadable_iff]
      have hfetch : s.Fetchable (n + 1) ↔ s.Fetchable n ∧ s.mmu.WordReadable (s.ahead n) :=
        Nat.forall_lt_succ_right
      rw [hfetch, Nat.forall_lt_succ_right, ← ih]
      exact and_congr_right fun h => (hword h).symm

/-- Every cycle fetches its word exactly where every address can be read. -/
theorem fetches_always_iff (s : Pipeline) :
    (∀ n, (after runCycle n s).mmu.WordReadable (after runCycle n s).registerBank.pc) ↔
      ∀ va, s.mmu.Reaches false va := by
  constructor
  · intro h va
    obtain ⟨k, j, hj, rfl⟩ := exists_word_of_address s.registerBank.pc va
    have hfetch : s.Fetchable (k + 1) := (s.fetchable_iff (k + 1)).mpr fun i _ => h i
    exact (s.mmu.wordReadable_iff _).mp (hfetch k (Nat.lt_succ_self k)) j hj
  · intro h n
    rw [(s.sameLayout_after n).wordReadable_iff, MMU.wordReadable_iff]
    exact fun k _ => h _

/-- A cycle that returns has read its word. -/
theorem readable_of_runCycle_ok {s : Pipeline} (h : ∃ a, outcome (runCycle.run s) = .ok a) :
    s.mmu.WordReadable s.registerBank.pc := by
  obtain ⟨⟨⟩, hok⟩ := h
  rw [MMU.wordReadable_iff, ← MMU.readWord_ok_iff_reaches]
  exact ⟨_, fetch_of_runCycle_ok hok⟩

theorem fetchable_of_completes {s : Pipeline} {n : Nat} (h : Completes runCycle n s) :
    s.Fetchable n :=
  (s.fetchable_iff n).mpr fun k hk => readable_of_runCycle_ok (h k hk)

end Pipeline

namespace CPU

/-- The pipeline of a CPU goes through the cycles of the CPU. -/
theorem pipeline_after (self : CPU) (n : Nat) :
    (after runCycle n self).pipeline = after Pipeline.runCycle n self.pipeline :=
  get_after_zoom (fun _ _ => rfl) _ n self

theorem completes_pipeline_iff (self : CPU) (n : Nat) :
    Completes runCycle n self ↔ Completes Pipeline.runCycle n self.pipeline := by
  simp only [Completes, outcome_runCycle, pipeline_after]

/-- The run loop goes on exactly as long as the cycles return. -/
theorem runLoop_eq_none_iff (fuel : Nat) (self : CPU) :
    runLoop fuel self = none ↔ Completes runCycle fuel self := by
  induction fuel generalizing self with
  | zero => exact ⟨fun _ k hk => absurd hk (Nat.not_lt_zero k), fun _ => rfl⟩
  | succ fuel ih =>
      rw [runLoop, completes_succ]
      cases hrun : runCycle.run self with
      | ok _ next =>
          rw [final_ok, outcome_ok]
          exact (ih next).trans ⟨fun h => ⟨⟨(), rfl⟩, h⟩, fun h => h.2⟩
      | error e last =>
          rw [outcome_error]
          constructor
          · intro h
            contradiction
          · rintro ⟨⟨a, ha⟩, -⟩
            contradiction

theorem run_eq_none_iff (fuel : Nat) (self : CPU) :
    self.run fuel = none ↔ Completes runCycle fuel self := by
  rw [← runLoop_eq_none_iff]
  unfold run
  cases runLoop fuel self with
  | none => simp
  | some p =>
      obtain ⟨e, last⟩ := p
      cases e <;> simp

end CPU

/-- **Runs without end**: every cycle of a run fetches its word, whatever the
cycles throw, exactly if each of the 2^32 addresses can be read; so cycles
return without end only on a pipeline where that is so. -/
theorem endless_reads_all (s : Pipeline) :
    ((∀ n, (after Pipeline.runCycle n s).mmu.WordReadable
        (after Pipeline.runCycle n s).registerBank.pc) ↔ ∀ va, s.mmu.Reaches false va) ∧
    ((∀ n, Completes Pipeline.runCycle n s) → ∀ va, s.mmu.Reaches false va) := by
  refine ⟨s.fetches_always_iff, fun hcompletes => ?_⟩
  rw [← Pipeline.fetches_always_iff]
  intro n
  exact Pipeline.readable_of_runCycle_ok (hcompletes (n + 1) n (Nat.lt_succ_self n))

/-! ## the run loop -/

namespace CPU.Attainable

variable {memorySize : Nat} {garbage : Uninitialized} {self : CPU}

/-- Of a CPU with one page, a word can be read that lies in page and memory. -/
theorem wordReadable_iff (h : Attainable memorySize garbage self) (va : Word) :
    self.pipeline.mmu.WordReadable va ↔ va.toNat + 4 ≤ loadable memorySize := by
  have hpage : loadable memorySize ≤ 4096 := Nat.min_le_right _ _
  have hreach : ∀ a, self.pipeline.mmu.Reaches false a ↔ a.toNat < loadable memorySize :=
    fun a => (h.sameLayout.reaches_iff false a).trans (reaches_new_iff memorySize garbage false a)
  have haddr : ∀ k < 4, va.toNat < 4096 → (va + BitVec.ofNat 32 k).toNat = va.toNat + k := by
    intro k hk hlow
    rw [BitVec.toNat_add, BitVec.toNat_ofNat, Nat.mod_eq_of_lt (by omega : k < 2 ^ 32)]
    exact Nat.mod_eq_of_lt (by omega)
  rw [MMU.wordReadable_iff]
  constructor
  · intro hall
    have hfirst := (hreach _).mp (hall 0 (by decide))
    rw [BitVec.add_zero] at hfirst
    have hlast := (hreach _).mp (hall 3 (by decide))
    rw [haddr 3 (by decide) (by omega)] at hlast
    omega
  · intro hfit k hk
    rw [hreach, haddr k hk (by omega)]
    omega

/-- As many words as can be read from `pc` on lie between it and the end of
page or memory. -/
theorem fetchable_le (h : Attainable memorySize garbage self) {n : Nat}
    (hfetch : self.pipeline.Fetchable n) :
    n ≤ (loadable memorySize - self.pipeline.registerBank.pc.toNat) / 4 := by
  have hpage : loadable memorySize ≤ 4096 := Nat.min_le_right _ _
  -- no word fetched wraps around, since each ends below the end of the page
  have hword : ∀ k ≤ n, k = 0 ∨
      self.pipeline.registerBank.pc.toNat + 4 * k ≤ loadable memorySize := by
    intro k
    induction k with
    | zero => exact fun _ => .inl rfl
    | succ k ih =>
        intro hk
        have hread := (h.wordReadable_iff _).mp (hfetch k (by omega))
        have hlow : self.pipeline.registerBank.pc.toNat + 4 * k < 2 ^ 32 := by
          rcases ih (by omega) with rfl | hprev
          · exact self.pipeline.registerBank.pc.isLt
          · omega
        rw [Pipeline.ahead, BitVec.toNat_add, BitVec.toNat_ofNat,
          Nat.mod_eq_of_lt (by omega : 4 * k < 2 ^ 32), Nat.mod_eq_of_lt hlow] at hread
        exact .inr (by omega)
  rcases hword n (Nat.le_refl n) with rfl | hn
  · exact Nat.zero_le _
  · omega

/-- And no more cycles complete. -/
theorem completes_le (h : Attainable memorySize garbage self) {n : Nat}
    (hcompletes : Completes CPU.runCycle n self) :
    n ≤ (loadable memorySize - self.pipeline.registerBank.pc.toNat) / 4 := by
  rw [CPU.completes_pipeline_iff] at hcompletes
  exact h.fetchable_le (Pipeline.fetchable_of_completes hcompletes)

/-- So some cycle throws. -/
theorem exists_throw (h : Attainable memorySize garbage self) :
    ∃ n ≤ (loadable memorySize - self.pipeline.registerBank.pc.toNat) / 4,
      Completes CPU.runCycle n self ∧
      ∃ e self', CPU.runCycle.run (after CPU.runCycle n self) = .error e self' := by
  have hbound : ¬ Completes CPU.runCycle
      ((loadable memorySize - self.pipeline.registerBank.pc.toNat) / 4 + 1) self :=
    fun hall => absurd (h.completes_le hall) (Nat.not_succ_le_self _)
  obtain ⟨n, hn, hfirst⟩ := exists_first_error hbound
  exact ⟨n, Nat.le_of_lt_succ hn, hfirst⟩

end CPU.Attainable

namespace CPU

/-- Once a cycle throws, `run` ends, and with more cycles ends the same. -/
theorem run_of_throws {self self' : CPU} {n : Nat} {e : Exception}
    (hcompletes : Completes runCycle n self)
    (hthrows : runCycle.run (after runCycle n self) = .error e self') :
    ∃ r, (∀ fuel, n < fuel → self.run fuel = some r) ∧
      (outcome r = .ok () ∨ outcome r = .error .exception) := by
  have hloop : ∀ fuel, n < fuel → runLoop fuel self = some (e, self') := fun fuel hn =>
    (runLoop_eq_some_iff fuel self self' e).mpr ⟨n, hn, hcompletes, hthrows⟩
  by_cases hend : e.IsEndOfProgram
  · exact ⟨.ok () self',
      fun fuel hn => (run_eq_ok_iff fuel self self').mpr ⟨e, hloop fuel hn, hend⟩, .inl rfl⟩
  · exact ⟨.error .exception self',
      fun fuel hn => (run_eq_error_iff fuel self self' _).mpr ⟨rfl, e, hloop fuel hn, hend⟩,
      .inr rfl⟩

end CPU

/-- **Termination**: on a CPU that has been through any loads and cycles, `run`
comes to an end, at the latest one cycle after as many as there are words from
`pc` to the end of page and memory; it returns, or throws a bare
`std::exception`, and more cycles would not change what it does. -/
theorem run_terminates {memorySize : Nat} {garbage : Uninitialized} {self : CPU}
    (h : CPU.Attainable memorySize garbage self) :
    ∃ n ≤ (loadable memorySize - self.pipeline.registerBank.pc.toNat) / 4, ∃ r,
      (∀ fuel ≤ n, self.run fuel = none) ∧ (∀ fuel, n < fuel → self.run fuel = some r) ∧
      (outcome r = .ok () ∨ outcome r = .error .exception) := by
  obtain ⟨n, hn, hcompletes, e, self', hthrows⟩ := h.exists_throw
  obtain ⟨r, hrun, hout⟩ := CPU.run_of_throws hcompletes hthrows
  refine ⟨n, hn, r, fun fuel hfuel => ?_, hrun, hout⟩
  rw [CPU.run_eq_none_iff]
  exact fun k hk => hcompletes k (Nat.lt_of_lt_of_le hk hfuel)

/-- The two-instruction program of the test suite ends in its third cycle. -/
theorem run_terminates_two : ∃ r, (∀ fuel ≤ 2, CPU.bootTwo.run fuel = none) ∧
    (∀ fuel, 2 < fuel → CPU.bootTwo.run fuel = some r) := by
  obtain ⟨n, -, r, hbefore, hafter, -⟩ := run_terminates CPU.attainable_bootTwo
  have hrunning : (CPU.bootTwo.run 2).isNone = true := by decide +kernel
  have hended : (CPU.bootTwo.run 3).isNone = false := by decide +kernel
  have hle : 2 ≤ n := by
    by_contra hlt
    rw [hafter 2 (Nat.lt_of_not_le hlt)] at hrunning
    contradiction
  have hlt : n < 3 := by
    by_contra hge
    rw [hbefore 3 (Nat.le_of_not_lt hge)] at hended
    contradiction
  obtain rfl : n = 2 := by omega
  exact ⟨r, hbefore, hafter⟩

end VirtuV
