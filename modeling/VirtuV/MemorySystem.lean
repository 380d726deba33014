import VirtuV.Jump
import VirtuV.Loader
import VirtuV.Privilege
import VirtuV.VirtualMemory

/-!
# VirtuV.MemorySystem

One machine on two memory systems.

A cycle looks at the MMU twice, to fetch its word and to store one.  So two
machines that differ in their MMUs alone go on alike as long as they fetch the
same words and their word writes match, in whatever sense the MMUs are related
(`Core.Over`).  Two such relations are

* **extension** — the second MMU grants whatever the first does, at the same
  place, and its memory begins with the first one's: more memory, more entries,
  more permissions or more privilege.  What returns on the first returns on the
  second;
* **alike** — the MMUs refuse the same accesses in the same way and send the
  others to the same place.  Every run is the same on both, which settles what
  of the page table and of the mode any run depends on.
-/

namespace VirtuV

open Stateful
open Rv32i (opcode rs2)

/-! ## machines that differ in the MMU -/

namespace Core

/-- The machines differ in their MMUs alone, and those are related by `Q`. -/
structure Over (Q : MMU → MMU → Prop) (c c' : Core) : Prop where
  mmu : Q c.mmu c'.mmu
  registerBank : c'.registerBank = c.registerBank
  result : c'.result = c.result

variable {Q : MMU → MMU → Prop}

theorem Over.pc {c c' : Core} (h : Over Q c c') : c'.pc = c.pc :=
  congrArg RegisterBank.pc h.registerBank

theorem Over.advance {c c' : Core} (h : Over Q c c') : Over Q c.advance c'.advance := by
  refine ⟨h.mmu, ?_, h.result⟩
  rw [Core.advance, Core.advance, h.pc, h.registerBank]

/-- A word that is no store is worked on without a look at the MMU. -/
theorem coupled_finish_of_not_store {w : Word} (h : opcode w ≠ 0x23) :
    Coupled (Over Q) (finish w) (finish w) := by
  rintro ⟨_, m, _⟩ ⟨bank, m', r⟩ ⟨hmmu, rfl, rfl⟩
  rcases opcode_cases w with hop | hop | hop | hop | hop | hop | hop
  · by_cases hf : Rv32i.funct3 w = 0
    · rw [run_finish_reg _ hop (if_pos hf), run_finish_reg _ hop (if_pos hf)]
      exact ⟨rfl, hmmu, rfl, rfl⟩
    · rw [run_finish_reg_error _ hop hf, run_finish_reg_error _ hop hf]
      exact ⟨rfl, hmmu, rfl, rfl⟩
  · rw [run_finish_imm _ hop, run_finish_imm _ hop]
    exact ⟨rfl, hmmu, rfl, rfl⟩
  · exact absurd hop h
  · cases ht : takesB w bank.x with
    | some taken =>
        rw [run_finish_branch ⟨bank, m, r⟩ hop ht, run_finish_branch ⟨bank, m', r⟩ hop ht]
        exact ⟨rfl, hmmu, rfl, rfl⟩
    | none =>
        rw [run_finish_branch_error ⟨bank, m, r⟩ hop ht,
          run_finish_branch_error ⟨bank, m', r⟩ hop ht]
        exact ⟨rfl, hmmu, rfl, rfl⟩
  · rw [run_finish_upper _ hop, run_finish_upper _ hop]
    exact ⟨rfl, hmmu, rfl, rfl⟩
  · by_cases hi : getImmediateJ ⟨w⟩ = 0
    · rw [run_finish_jump_end _ hop hi, run_finish_jump_end _ hop hi]
      exact ⟨rfl, hmmu, rfl, rfl⟩
    · rw [run_finish_jump _ hop hi, run_finish_jump _ hop hi]
      exact ⟨rfl, hmmu, rfl, rfl⟩
  · rw [run_finish_unsupported _ hop, run_finish_unsupported _ hop]
    exact ⟨rfl, hmmu, rfl, rfl⟩

/-- A store is one word write, of the same word to the same address. -/
theorem run_finish_store_over {w : Word} (h : opcode w = 0x23) {c c' : Core} (hc : Over Q c c') :
    ∃ va data d d', Over Q d d' ∧
      (finish w).run c =
        (zoom mmu (fun mmu c => { c with mmu }) (MMU.writeWord va data)).run d ∧
      (finish w).run c' =
        (zoom mmu (fun mmu c => { c with mmu }) (MMU.writeWord va data)).run d' := by
  obtain ⟨_, m, _⟩ := c
  obtain ⟨bank, m', r⟩ := c'
  obtain ⟨hmmu, rfl, rfl⟩ := hc
  exact ⟨storeAddress w bank.x, bank.x (rs2 w), setAlu ⟨bank, m, r⟩ (storeAddress w bank.x),
    setAlu ⟨bank, m', r⟩ (storeAddress w bank.x), ⟨hmmu, rfl, rfl⟩,
    run_finish_store ⟨bank, m, r⟩ h, run_finish_store ⟨bank, m', r⟩ h⟩

/-- Where word writes move the MMUs together, the rest of a cycle moves the
machines together. -/
theorem coupled_finish (hwrite : ∀ va w, Coupled Q (MMU.writeWord va w) (MMU.writeWord va w))
    (w : Word) : Coupled (Over Q) (finish w) (finish w) := by
  by_cases h : opcode w = 0x23
  · intro c c' hc
    obtain ⟨va, data, d, d', hd, hrun, hrun'⟩ := run_finish_store_over h hc
    rw [hrun, hrun']
    exact Coupled.zoom (hwrite va data) (fun _ _ h => h.mmu)
      (fun _ _ _ _ h hm => ⟨hm, h.registerBank, h.result⟩) d d' hd
  · exact coupled_finish_of_not_store h

/-- Where a word write of the one MMU that returns is one of the other, so is
the rest of a cycle. -/
theorem simulatedBy_finish
    (hwrite : ∀ va w, SimulatedBy Q (MMU.writeWord va w) (MMU.writeWord va w)) (w : Word) :
    SimulatedBy (Over Q) (finish w) (finish w) := by
  by_cases h : opcode w = 0x23
  · intro c c' hc
    obtain ⟨va, data, d, d', hd, hrun, hrun'⟩ := run_finish_store_over h hc
    rw [hrun, hrun']
    exact SimulatedBy.zoom (hwrite va data) (fun _ _ h => h.mmu)
      (fun _ _ _ _ h hm => ⟨hm, h.registerBank, h.result⟩) d d' hd
  · exact (coupled_finish_of_not_store h).simulatedBy

/-- A cycle of machines that fetch the same word. -/
theorem over_cycle_of_fetch {c c' : Core} {w : Word} (h : Over Q c c')
    (hread : c.mmu.readWord c.pc = .ok w) (hread' : c'.mmu.readWord c.pc = .ok w)
    (hfinish : Coupled (Over Q) (finish w) (finish w)) :
    outcome (cycle.run c) = outcome (cycle.run c') ∧
      Over Q (final (cycle.run c)) (final (cycle.run c')) := by
  rw [← h.pc] at hread'
  rw [cycle_of_fetch hread, cycle_of_fetch hread']
  exact hfinish _ _ h.advance

/-- A cycle of machines that fetch the same, or fail to in the same way. -/
theorem over_cycle (hwrite : ∀ va w, Coupled Q (MMU.writeWord va w) (MMU.writeWord va w))
    {c c' : Core} (h : Over Q c c') (hread : c'.mmu.readWord c.pc = c.mmu.readWord c.pc) :
    outcome (cycle.run c) = outcome (cycle.run c') ∧
      Over Q (final (cycle.run c)) (final (cycle.run c')) := by
  cases hw : c.mmu.readWord c.pc with
  | ok w => exact over_cycle_of_fetch h hw (hread.trans hw) (coupled_finish hwrite w)
  | error e =>
      rw [← h.pc] at hread
      rw [cycle_of_fetch_error hw, cycle_of_fetch_error (by rw [hread, h.pc, hw])]
      exact ⟨rfl, h⟩

/-- Where words read in the one MMU are read alike in the other, a cycle that
returns in the one machine does so in the other. -/
theorem simulatedBy_cycle_over
    (hread : ∀ m m' va w, Q m m' → m.readWord va = .ok w → m'.readWord va = .ok w)
    (hwrite : ∀ va w, SimulatedBy Q (MMU.writeWord va w) (MMU.writeWord va w)) :
    SimulatedBy (Over Q) cycle cycle := by
  rw [cycle_eq]
  refine .bind ?_ fun w => simulatedBy_finish hwrite w
  refine .bind (.tries fun c c' h w hw => ?_) fun w =>
    .bind (Coupled.modify fun c c' h => h.advance).simulatedBy fun _ => (Coupled.pure w).simulatedBy
  rw [h.pc]
  exact hread _ _ _ _ h.mmu hw

end Core

/-- The pipelines of the CPUs are machines that differ in their MMUs alone. -/
def CPU.Over (Q : MMU → MMU → Prop) (self cpu : CPU) : Prop :=
  Core.Over Q self.pipeline.core cpu.pipeline.core

/-- Cycles of the flat machines that match are cycles of the CPUs that match. -/
theorem CPU.over_runCycle {Q : MMU → MMU → Prop} {self cpu : CPU}
    (h : outcome (Core.cycle.run self.pipeline.core) = outcome (Core.cycle.run cpu.pipeline.core) ∧
      Core.Over Q (final (Core.cycle.run self.pipeline.core))
        (final (Core.cycle.run cpu.pipeline.core))) :
    outcome (runCycle.run self) = outcome (runCycle.run cpu) ∧
      Over Q (final (runCycle.run self)) (final (runCycle.run cpu)) := by
  have hcore : ∀ c : CPU, (final (runCycle.run c)).pipeline.core =
      final (Core.cycle.run c.pipeline.core) := by
    intro c
    rw [runCycle, final_zoom]
    exact core_runCycle c.pipeline
  rw [Over, hcore, hcore, outcome_runCycle, outcome_runCycle,
    (runCycle_core self.pipeline _ rfl).1, (runCycle_core cpu.pipeline _ rfl).1]
  exact h

theorem CPU.simulatedBy_runCycle_over {Q : MMU → MMU → Prop}
    (hread : ∀ m m' va w, Q m m' → m.readWord va = .ok w → m'.readWord va = .ok w)
    (hwrite : ∀ va w, SimulatedBy Q (MMU.writeWord va w) (MMU.writeWord va w)) :
    SimulatedBy (Over Q) runCycle runCycle :=
  .zoom (.of_coupled runCycle_core (Core.simulatedBy_cycle_over hread hwrite))
    (fun _ _ h => h) fun _ _ _ _ _ h => h

/-! ## extension -/

namespace MMU

/-- `m'` grants whatever `m` does, at the same physical address, and its memory
begins with the memory of `m`. -/
structure Extends (m m' : MMU) : Prop where
  grants : ∀ isWrite va, m.grants isWrite va = true → m'.grants isWrite va = true
  physical : ∀ isWrite va, m.grants isWrite va = true → m'.physical va = m.physical va
  memory : ∀ (a : Nat) b, m.physicalMemory.memory[a]? = some b →
    m'.physicalMemory.memory[a]? = some b

/-- It does if it keeps the entries, adds to them, and is in a mode that
permits no less. -/
theorem extends_of_entries {m m' : MMU}
    (hentries : ∀ key e, m.pageTable.entries key = some e → m'.pageTable.entries key = some e)
    (hmode : ∀ bit e, PageTableEntry.permits bit e m.privilegeMode = true →
      PageTableEntry.permits bit e m'.privilegeMode = true)
    (hmemory : ∀ (a : Nat) b, m.physicalMemory.memory[a]? = some b →
      m'.physicalMemory.memory[a]? = some b) : m.Extends m' where
  grants isWrite va h := by
    obtain ⟨e, hentry, hperm, hphys⟩ := (grants_iff m isWrite va).mp h
    unfold MMU.grants
    rw [hentries _ _ hentry]
    exact hmode _ _ hperm
  physical isWrite va h := by
    obtain ⟨e, hentry, -, -⟩ := (grants_iff m isWrite va).mp h
    rw [physical_of_some hentry, physical_of_some (hentries _ _ hentry)]
  memory := hmemory

namespace Extends

variable {m m' : MMU}

theorem length_le (h : m.Extends m') :
    m.physicalMemory.memory.length ≤ m'.physicalMemory.memory.length := by
  apply Nat.le_of_not_lt
  intro hlt
  have hbyte := h.memory _ _ (List.getElem?_eq_getElem hlt)
  rw [List.getElem?_eq_none (Nat.le_refl _)] at hbyte
  contradiction

theorem reaches (h : m.Extends m') {isWrite : Bool} {va : Word} (hr : m.Reaches isWrite va) :
    m'.Reaches isWrite va := by
  refine ⟨h.grants _ _ hr.1, ?_⟩
  rw [h.physical _ _ hr.1]
  exact Nat.lt_of_lt_of_le hr.2 h.length_le

theorem read (h : m.Extends m') {va : Word} {b : Byte} (hb : m.read va = .ok b) :
    m'.read va = .ok b := by
  rw [read_eq_ok_iff] at hb ⊢
  rw [h.physical _ _ hb.1]
  exact ⟨h.grants _ _ hb.1, h.memory _ _ hb.2⟩

theorem readWord (h : m.Extends m') {va w : Word} (hw : m.readWord va = .ok w) :
    m'.readWord va = .ok w :=
  readWord_of_bytes fun k hk => h.read (read_of_readWord hw k hk)

/-- A byte stored in both is stored at the same place. -/
theorem store (h : m.Extends m') {va : Word} (hr : m.Reaches true va) (b : Byte) :
    (m.store (m.physical va) b).Extends (m'.store (m'.physical va) b) where
  grants := h.grants
  physical := h.physical
  memory a b' hb' := by
    have hlt := (h.reaches hr).2
    rw [store_memory] at hb' ⊢
    rw [h.physical _ _ hr.1] at hlt ⊢
    by_cases ha : (m.physical va).toNat = a
    · subst ha
      rw [List.getElem?_set_self hr.2] at hb'
      rw [List.getElem?_set_self hlt, hb']
    · rw [List.getElem?_set_ne ha] at hb' ⊢
      exact h.memory a b' hb'

end Extends

theorem simulatedBy_write_extends (va : Word) (b : Byte) :
    SimulatedBy Extends (write va b) (write va b) := by
  intro m m' h a n hrun
  by_cases hr : m.Reaches true va
  · rw [run_write_of_reaches b hr] at hrun
    obtain ⟨-, rfl⟩ := EStateM.Result.ok.inj hrun
    exact ⟨_, run_write_of_reaches b (h.reaches hr), h.store hr b⟩
  · obtain ⟨e, -, hthrows⟩ := run_write_of_not_reaches b hr
    rw [hthrows] at hrun
    contradiction

theorem simulatedBy_writeWord_extends (va w : Word) :
    SimulatedBy Extends (writeWord va w) (writeWord va w) :=
  .bind (simulatedBy_write_extends _ _) fun _ => .bind (simulatedBy_write_extends _ _) fun _ =>
    .bind (simulatedBy_write_extends _ _) fun _ => simulatedBy_write_extends _ _

end MMU

/-- Cycles that return on the one machine return on its extension. -/
theorem CPU.simulatedBy_runCycle_extends : SimulatedBy (Over MMU.Extends) runCycle runCycle :=
  simulatedBy_runCycle_over (fun _ _ _ _ h => h.readWord) MMU.simulatedBy_writeWord_extends

/-- A program that ends on the one machine ends on its extension. -/
theorem CPU.Over.throws_end {self cpu self' : CPU} {e : Exception}
    (h : Over MMU.Extends self cpu) (hrun : runCycle.run self = .error e self')
    (hend : e.IsEndOfProgram) :
    ∃ cpu', runCycle.run cpu = .error e cpu' ∧ Over MMU.Extends self' cpu' := by
  obtain ⟨w, hw, hjump⟩ := (endOfProgram_runCycle_iff self).mp ⟨e, self', hrun, hend⟩
  have hop : opcode w ≠ 0x23 := by
    rw [hjump.1]
    decide
  have hw' : cpu.pipeline.mmu.readWord self.pipeline.registerBank.pc = .ok w := h.mmu.readWord hw
  obtain ⟨ho, hover⟩ := over_runCycle
    (Core.over_cycle_of_fetch h hw hw' (Core.coupled_finish_of_not_store hop))
  rw [hrun] at ho hover
  exact ⟨_, eq_error_of_outcome ho.symm, hover⟩

/-- As many cycles as return on the one machine return on its extension. -/
theorem CPU.Over.cycles {self cpu : CPU} (h : Over MMU.Extends self cpu) {n : Nat}
    (hn : Completes runCycle n self) : Completes runCycle n cpu ∧
      ∀ k ≤ n, Over MMU.Extends (after runCycle k self) (after runCycle k cpu) :=
  simulatedBy_runCycle_extends.after h hn

/-- If `run` returns on the one, it does on the other. -/
theorem CPU.Over.run_ok {self cpu self' : CPU} (h : Over MMU.Extends self cpu) {fuel : Nat}
    (hrun : self.run fuel = some (.ok () self')) :
    ∃ cpu', cpu.run fuel = some (.ok () cpu') ∧ Over MMU.Extends self' cpu' := by
  obtain ⟨e, hloop, hend⟩ := (run_eq_ok_iff _ _ _).mp hrun
  obtain ⟨n, hn, hall, hlast⟩ := (runLoop_eq_some_iff _ _ _ _).mp hloop
  obtain ⟨hall', hover⟩ := h.cycles hall
  obtain ⟨cpu', hlast', hover'⟩ := (hover n (Nat.le_refl n)).throws_end hlast hend
  refine ⟨cpu', (run_eq_ok_iff _ _ _).mpr ⟨e, ?_, hend⟩, hover'⟩
  exact (runLoop_eq_some_iff _ _ _ _).mpr ⟨n, hn, hall', hlast'⟩

/-- **A larger machine**: if the MMU of the second CPU grants whatever that of
the first does, at the same place, and its memory begins with the memory of the
first, then as many cycles as return on the first return on the second, with
the same registers and `pc` after each; and if `run` returns on the first, it
returns on the second, having come to the same. -/
theorem run_extends {self cpu : CPU} (h : CPU.Over MMU.Extends self cpu) :
    (∀ n, Completes CPU.runCycle n self → Completes CPU.runCycle n cpu ∧
      ∀ k ≤ n, CPU.Over MMU.Extends (after CPU.runCycle k self) (after CPU.runCycle k cpu)) ∧
    (∀ fuel self', self.run fuel = some (.ok () self') →
      ∃ cpu', cpu.run fuel = some (.ok () cpu') ∧ CPU.Over MMU.Extends self' cpu') :=
  ⟨fun _ => h.cycles, fun _ _ => h.run_ok⟩

/-- A larger memory makes a larger machine. -/
theorem CPU.over_new {memorySize memorySize' : Nat} (garbage : Uninitialized)
    (h : memorySize ≤ memorySize') :
    Over MMU.Extends (.new memorySize garbage) (.new memorySize' garbage) := by
  refine ⟨MMU.extends_of_entries (fun _ _ => id) (fun _ _ => id) fun a b ha => ?_, rfl, rfl⟩
  have hold : (List.replicate memorySize (0 : Byte))[a]? = some b := ha
  show (List.replicate memorySize' (0 : Byte))[a]? = some b
  obtain ⟨hlt, hb⟩ := List.getElem?_eq_some_iff.mp hold
  rw [List.length_replicate] at hlt
  rw [List.getElem_replicate] at hb
  rw [List.getElem?_replicate_of_lt (Nat.lt_of_lt_of_le hlt h), hb]

/-- A file that fits the one fits the other, and leaves it the larger. -/
theorem CPU.Over.loadProgram {memorySize memorySize' : Nat} {garbage garbage' : Uninitialized}
    {self cpu : CPU} {bytes : List Byte} (h : Over MMU.Extends self cpu)
    (hself : Attainable memorySize garbage self) (hcpu : Attainable memorySize' garbage' cpu)
    (hfit : bytes.length ≤ loadable memorySize) (hsize : memorySize ≤ memorySize') :
    (cpu.loadProgram (.contents bytes)).1 = .ok 0 ∧
      Over MMU.Extends (self.loadProgram (.contents bytes)).2
        (cpu.loadProgram (.contents bytes)).2 := by
  have hfit' : bytes.length ≤ loadable memorySize' := by
    unfold loadable at hfit ⊢
    omega
  rw [hself.loadProgram_short hfit, hcpu.loadProgram_short hfit']
  refine ⟨rfl, ⟨h.mmu.grants, h.mmu.physical, fun a b ha => ?_⟩, ?_, h.result⟩
  · show (overlay cpu.pipeline.mmu.physicalMemory.memory 0 bytes)[a]? = some b
    have hold : (overlay self.pipeline.mmu.physicalMemory.memory 0 bytes)[a]? = some b := ha
    rw [getElem?_overlay_zero] at hold ⊢
    by_cases hlt : a < bytes.length
    · rwa [if_pos hlt] at hold ⊢
    · rw [if_neg hlt] at hold ⊢
      exact h.mmu.memory a b hold
  · exact congrArg (·.setPc 0) h.registerBank

/-- A fresh CPU of this size that has loaded `addi x1, x0, 5`. -/
def bootFive (memorySize : Nat) : CPU :=
  .boot memorySize ⟨7, 8, 9⟩ (programFile [.imm .addi 1 0 5])

/-- What it does with eight bytes it does with sixteen. -/
theorem run_extends_bootFive :
    ∃ cpu', (bootFive 16).run 2 = some (.ok () cpu') ∧ cpu'.pipeline.registerBank.x 1 = 5 := by
  have hnew : CPU.Attainable 8 ⟨7, 8, 9⟩ (.new 8 ⟨7, 8, 9⟩) := .new
  obtain ⟨loaded, self', hload, hrun, hx, -⟩ := hnew.run_program [.imm .addi 1 0 5] (by decide)
  obtain rfl : bootFive 8 = loaded := congrArg Prod.snd hload
  have hover : CPU.Over MMU.Extends (bootFive 8) (bootFive 16) :=
    ((CPU.over_new ⟨7, 8, 9⟩ (by decide)).loadProgram .new .new (by decide) (by decide)).2
  obtain ⟨cpu', hrun', hover'⟩ := (run_extends hover).2 2 self' (hrun 2 (by decide))
  have hbank := congrArg (RegisterBank.x · 1) hover'.registerBank
  refine ⟨cpu', hrun', hbank.trans ?_⟩
  show self'.pipeline.registerBank.x 1 = 5
  rw [hx]
  decide +kernel

/-! ## MMUs alike -/

namespace MMU

/-- The MMUs hold the same memory, refuse the same accesses in the same way,
and send the others to the same place. -/
structure Alike (m m' : MMU) : Prop where
  guard : m'.guard = m.guard
  physical : ∀ isWrite va, m.guard isWrite va = none → m'.physical va = m.physical va
  memory : m'.physicalMemory = m.physicalMemory

namespace Alike

variable {m m' : MMU}

theorem read (h : m.Alike m') (va : Word) : m'.read va = m.read va := by
  have hguard := congrFun (congrFun h.guard false) va
  cases hg : m.guard false va with
  | some e => rw [read_of_guard_some hg, read_of_guard_some (hguard.trans hg)]
  | none =>
      obtain ⟨b, hb⟩ := (read_ok_iff_reaches m va).mpr ((guard_eq_none_iff m _ _).mp hg)
      have hreach := (guard_eq_none_iff m' _ _).mp (hguard.trans hg)
      rw [hb]
      rw [read_eq_ok_iff] at hb ⊢
      rw [h.physical _ _ hg, h.memory]
      exact ⟨hreach.1, hb.2⟩

theorem readWord (h : m.Alike m') (va : Word) : m'.readWord va = m.readWord va := by
  unfold MMU.readWord
  simp only [h.read]

/-- A byte stored in both is stored at the same place. -/
theorem store (h : m.Alike m') {va : Word} (hg : m.guard true va = none) (b : Byte) :
    (m.store (m.physical va) b).Alike (m'.store (m'.physical va) b) := by
  have hstored : ∀ (n : MMU) (pa : Word), (n.store pa b).guard = n.guard :=
    fun n pa => MMU.guard_eq rfl rfl List.length_set
  have hva := h.physical _ _ hg
  refine ⟨?_, fun isWrite va' hg' => ?_, ?_⟩
  · rw [hstored, hstored, h.guard]
  · rw [hstored] at hg'
    exact h.physical _ _ hg'
  · rw [MMU.store, MMU.store, hva, h.memory]

end Alike

theorem coupled_write_alike (va : Word) (b : Byte) : Coupled Alike (write va b) (write va b) := by
  intro m m' h
  have hguard := congrFun (congrFun h.guard true) va
  cases hg : m.guard true va with
  | some e =>
      rw [run_write_of_guard_some b hg, run_write_of_guard_some b (hguard.trans hg)]
      exact ⟨rfl, h⟩
  | none =>
      rw [run_write_of_reaches b ((guard_eq_none_iff m _ _).mp hg),
        run_write_of_reaches b ((guard_eq_none_iff m' _ _).mp (hguard.trans hg))]
      exact ⟨rfl, h.store hg b⟩

theorem coupled_writeWord_alike (va w : Word) :
    Coupled Alike (writeWord va w) (writeWord va w) :=
  .bind (coupled_write_alike _ _) fun _ => .bind (coupled_write_alike _ _) fun _ =>
    .bind (coupled_write_alike _ _) fun _ => coupled_write_alike _ _

end MMU

/-- Machines whose MMUs are alike go through the same run, exceptions included. -/
theorem Core.coupled_cycle_alike : Coupled (Over MMU.Alike) cycle cycle :=
  fun _ _ h => over_cycle MMU.coupled_writeWord_alike h (h.mmu.readWord _)

/-- The two machines report the same cycle after cycle, with the same
registers, `pc` and memory before each. -/
def Pipeline.SameRun (s t : Pipeline) : Prop := ∀ n,
  outcome (runCycle.run (after runCycle n s)) = outcome (runCycle.run (after runCycle n t)) ∧
  (after runCycle n t).registerBank = (after runCycle n s).registerBank ∧
  (after runCycle n t).mmu.physicalMemory = (after runCycle n s).mmu.physicalMemory

theorem Pipeline.sameRun_of_alike {s t : Pipeline} (h : Core.Over MMU.Alike s.core t.core) :
    s.SameRun t := by
  have hcore : ∀ n, Core.Over MMU.Alike (after runCycle n s).core (after runCycle n t).core := by
    intro n
    induction n with
    | zero => exact h
    | succ n ih =>
        rw [after_succ, after_succ, core_runCycle, core_runCycle]
        exact (Core.coupled_cycle_alike _ _ ih).2
  intro n
  rw [(runCycle_core _ _ rfl).1, (runCycle_core (after runCycle n t) _ rfl).1]
  exact ⟨(Core.coupled_cycle_alike _ _ (hcore n)).1, (hcore n).registerBank,
    (hcore n).mmu.memory⟩

/-! ## what a run depends on -/

namespace PageTableEntry

/-- The frame and the bits V, R, W and U of an entry. -/
def live (e : PageTableEntry) : Word := e.entryValue &&& 0xFFFFF017

/-- Bits of the entry among these. -/
theorem and_eq_of_live {e e' : PageTableEntry} (h : e'.live = e.live) {b : Word}
    (hb : 0xFFFFF017 &&& b = b) : e'.entryValue &&& b = e.entryValue &&& b := by
  rw [← hb, ← BitVec.and_assoc, ← BitVec.and_assoc]
  exact congrArg (· &&& b) h

theorem isValid_of_live {e e' : PageTableEntry} (h : e'.live = e.live) :
    e'.isValid = e.isValid := by
  rw [isValid, isValid, and_eq_of_live h (by decide)]

/-- The permissions the MMU asks for are among these bits. -/
theorem permits_of_live {e e' : PageTableEntry} (h : e'.live = e.live) {mode mode' : PrivilegeMode}
    (hmode : mode' = .user ↔ mode = .user) (isWrite : Bool) :
    permits (accessBit isWrite) e' mode' = permits (accessBit isWrite) e mode := by
  have hbit : e'.entryValue &&& accessBit isWrite = e.entryValue &&& accessBit isWrite := by
    apply and_eq_of_live h
    cases isWrite <;> decide
  have huser : (mode' == .user) = (mode == .user) := by
    rw [Bool.eq_iff_iff, beq_iff_eq, beq_iff_eq, hmode]
  rw [permits, permits, isValid_of_live h, hbit, huser,
    and_eq_of_live h (b := userAccessibleBit) (by decide)]

theorem getPhysicalAddress_of_live {e e' : PageTableEntry} (h : e'.live = e.live) (va : Word) :
    e'.getPhysicalAddress va = e.getPhysicalAddress va := by
  rw [getPhysicalAddress, getPhysicalAddress, and_eq_of_live h (by decide)]

end PageTableEntry

namespace MMU

variable {m m' : MMU}

/-- MMUs whose entries agree in these bits translate alike. -/
theorem translateAddress_of_live
    (hentries : ∀ va, (m'.pageTable.entries (va &&& 0xFFFFF000)).map PageTableEntry.live =
      (m.pageTable.entries (va &&& 0xFFFFF000)).map PageTableEntry.live)
    (hmode : m'.privilegeMode = .user ↔ m.privilegeMode = .user) (va : Word) (isWrite : Bool) :
    m'.translateAddress va isWrite = m.translateAddress va isWrite := by
  have hva := hentries va
  unfold translateAddress
  simp only [getEntry_page]
  cases hentry : m.pageTable.entries (va &&& 0xFFFFF000) with
  | none =>
      rw [hentry, Option.map_none, Option.map_eq_none_iff] at hva
      rw [getEntry_of_none hentry, getEntry_of_none hva]
      rfl
  | some e =>
      rw [hentry, Option.map_some, Option.map_eq_some_iff] at hva
      obtain ⟨e', hentry', hlive⟩ := hva
      rw [getEntry_of_some hentry, getEntry_of_some hentry']
      have hwrite := PageTableEntry.permits_of_live hlive hmode true
      have hread := PageTableEntry.permits_of_live hlive hmode false
      simp only [accessBit, if_true, Bool.false_eq_true, if_false] at hwrite hread
      simp only [bind, Except.bind, PageTableEntry.isValid_of_live hlive,
        PageTableEntry.isWritable, PageTableEntry.isReadable, hwrite, hread,
        PageTableEntry.getPhysicalAddress_of_live hlive]
      rfl

/-- So they are alike, if they hold the same memory. -/
theorem alike_of_live
    (hentries : ∀ va, (m'.pageTable.entries (va &&& 0xFFFFF000)).map PageTableEntry.live =
      (m.pageTable.entries (va &&& 0xFFFFF000)).map PageTableEntry.live)
    (hmode : m'.privilegeMode = .user ↔ m.privilegeMode = .user)
    (hmemory : m'.physicalMemory = m.physicalMemory) : m.Alike m' where
  guard := by
    funext isWrite va
    rw [MMU.guard, MMU.guard, translateAddress_of_live hentries hmode, hmemory]
  physical isWrite va hg := by
    have hgrants := ((guard_eq_none_iff m isWrite va).mp hg).1
    have hpa := translateAddress_of_grants hgrants
    rw [← translateAddress_of_live hentries hmode, translateAddress_eq_ok_iff] at hpa
    exact hpa.2
  memory := hmemory

end MMU

namespace Pipeline

/-- The pipeline with an entry added to its page table. -/
def withEntry (s : Pipeline) (key : Word) (e : PageTableEntry) : Pipeline :=
  { s with mmu := { s.mmu with pageTable := s.mmu.pageTable.addEntry key e } }

/-- No run depends on bit `i` of an entry of the page table. -/
def BitDead (i : Nat) : Prop := ∀ (s : Pipeline) key (e : PageTableEntry),
  (s.withEntry key e).SameRun (s.withEntry key ⟨e.entryValue ^^^ BitVec.twoPow 32 i⟩)

/-- No run depends on the entry the page table has under a key. -/
def KeyDead (key : Word) : Prop := ∀ (s : Pipeline) e e',
  (s.withEntry key e).SameRun (s.withEntry key e')

/-- No run depends on which of the two modes the MMU is in. -/
def ModesAlike (mode mode' : PrivilegeMode) : Prop := ∀ s : Pipeline,
  (s.inMode mode).SameRun (s.inMode mode')

/-- Entries that agree in their live bits make for the same runs. -/
theorem sameRun_withEntry (s : Pipeline) {key : Word} {e e' : PageTableEntry}
    (h : key &&& 0xFFF = 0 → e'.live = e.live) :
    (s.withEntry key e).SameRun (s.withEntry key e') := by
  refine sameRun_of_alike ⟨MMU.alike_of_live (fun va => ?_) Iff.rfl rfl, rfl, rfl⟩
  by_cases hkey : va &&& 0xFFFFF000 = key
  · have hlive := h (hkey ▸ page_and_offset va)
    simp only [core, withEntry, PageTable.addEntry, if_pos hkey, Option.map_some, hlive]
  · simp only [core, withEntry, PageTable.addEntry, if_neg hkey]

/-- A user-mode pipeline of four bytes that hold `sw x0, 0(x0)`, with one
entry. -/
def storing (e : PageTableEntry) : Pipeline :=
  (Pipeline.new .new ⟨⟨[0x23, 0x20, 0x00, 0x00]⟩, .new, .user⟩ ⟨0, 0, 0⟩).withEntry 0 e

/-- It runs if the entry is valid, readable, writable, user accessible and for
the first frame, and not if one of these bits is the other way. -/
theorem outcome_storing (i : Fin 32) (h : ¬ (i.val = 3 ∨ 5 ≤ i.val ∧ i.val ≤ 11)) :
    outcome (runCycle.run (storing ⟨0x17⟩)) ≠
      outcome (runCycle.run (storing ⟨0x17 ^^^ BitVec.twoPow 32 i⟩)) := by
  revert h
  revert i
  decide +kernel

theorem bitDead_iff {i : Nat} (hi : i < 32) : BitDead i ↔ i = 3 ∨ 5 ≤ i ∧ i ≤ 11 := by
  constructor
  · intro hdead
    by_contra hlive
    exact outcome_storing ⟨i, hi⟩ hlive (hdead _ 0 ⟨0x17⟩ 0).1
  · intro h s key e
    have hmask : BitVec.twoPow 32 i &&& 0xFFFFF017 = 0#32 := by
      have hall : ∀ j : Fin 32, j.val = 3 ∨ 5 ≤ j.val ∧ j.val ≤ 11 →
          BitVec.twoPow 32 j &&& 0xFFFFF017 = 0#32 := by decide
      exact hall ⟨i, hi⟩ h
    refine s.sameRun_withEntry fun _ => ?_
    have hxor : ∀ x y z : Word, (x ^^^ y) &&& z = (x &&& z) ^^^ (y &&& z) := by
      intro x y z
      ext j hj
      simp only [BitVec.getElem_and, BitVec.getElem_xor]
      exact Bool.and_xor_distrib_right ..
    rw [PageTableEntry.live, PageTableEntry.live, hxor, hmask, BitVec.xor_zero]

/-- A pipeline without memory, about to fetch from `key`, with one entry. -/
def fetching (key : Word) (e : PageTableEntry) : Pipeline :=
  (Pipeline.new (RegisterBank.new.setPc key) ⟨⟨[]⟩, .new, .machine⟩ ⟨0, 0, 0⟩).withEntry key e

/-- What its fetch is refused with, its cycle throws. -/
theorem outcome_fetching {key : Word} {e : PageTableEntry} {x : Exception}
    (h : (fetching key e).mmu.guard false key = some x) :
    outcome (runCycle.run (fetching key e)) = .error x := by
  have hread : (fetching key e).mmu.readWord (fetching key e).registerBank.pc = .error x := by
    rw [MMU.readWord]
    show (fetching key e).mmu.read key >>= _ = _
    rw [MMU.read_of_guard_some h]
    rfl
  obtain ⟨s', hrun, -⟩ := runCycle_of_fetch_error hread
  rw [hrun, outcome_error]

/-- At the first address of a page it is refused for lack of memory if the
entry is readable, and as a page fault if it is not valid. -/
theorem keyDead_iff (key : Word) : KeyDead key ↔ key &&& 0xFFF ≠ 0 := by
  constructor
  · intro hdead hkey
    have hpage : key &&& 0xFFFFF000 = key := by
      apply Bits.eq_of_and_eq (Bits.and_and_self _ key)
      rw [← PageTableEntry.offsetMask_eq_not, page_and_offset, hkey]
    have hentry : ∀ e, (fetching key e).mmu.pageTable.entries (key &&& 0xFFFFF000) = some e := by
      intro e
      rw [hpage]
      exact if_pos rfl
    have hreadable : outcome (runCycle.run (fetching key ⟨0x3⟩)) =
        .error (.outOfRange "PhysicalMemory::read - Address out of range") := by
      apply outcome_fetching
      rw [MMU.guard, MMU.translateAddress]
      simp only [MMU.getEntry_page, MMU.getEntry_of_some (hentry _), bind, Except.bind]
      rfl
    have hinvalid : outcome (runCycle.run (fetching key ⟨0⟩)) =
        .error (.pageFaultException "MMU::translate_address - Invalid page entry") := by
      apply outcome_fetching
      rw [MMU.guard, MMU.translateAddress]
      simp only [MMU.getEntry_page, MMU.getEntry_of_some (hentry _), bind, Except.bind]
      rfl
    have hsame := (hdead (Pipeline.new (RegisterBank.new.setPc key) ⟨⟨[]⟩, .new, .machine⟩
      ⟨0, 0, 0⟩) ⟨0x3⟩ ⟨0⟩ 0).1
    rw [after_zero, after_zero] at hsame
    have habsurd := hreadable.symm.trans (hsame.trans hinvalid)
    contradiction
  · exact fun h s e e' => s.sameRun_withEntry fun hkey => absurd hkey h

theorem modesAlike_iff (mode mode' : PrivilegeMode) :
    ModesAlike mode mode' ↔ (mode' = .user ↔ mode = .user) := by
  constructor
  · intro halike
    have hprobe := (halike (storing ⟨0x07⟩) 0).1
    cases mode <;> cases mode' <;> first | exact by decide | exact absurd hprobe (by decide +kernel)
  · intro h s
    exact sameRun_of_alike ⟨MMU.alike_of_live (fun _ => rfl) h rfl, rfl, rfl⟩

end Pipeline

/-- **What runs depend on** of the page table and the mode: of an entry, its
frame and the bits V, R, W and U, not the execute bit nor the bits above U; of
the keys, those that are the first address of a page; and of the modes, whether
it is USER.  Whatever else is changed, every run of every machine goes on as
before, exceptions included, and each of these some run depends on. -/
theorem run_depends_on :
    (∀ i < 32, Pipeline.BitDead i ↔ i = 3 ∨ 5 ≤ i ∧ i ≤ 11) ∧
    (∀ key, Pipeline.KeyDead key ↔ key &&& 0xFFF ≠ 0) ∧
    (∀ mode mode', Pipeline.ModesAlike mode mode' ↔ (mode' = .user ↔ mode = .user)) :=
  ⟨fun _ => Pipeline.bitDead_iff, Pipeline.keyDead_iff, Pipeline.modesAlike_iff⟩

end VirtuV
