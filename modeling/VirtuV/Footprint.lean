import VirtuV.Exceptions
import VirtuV.History
import VirtuV.MemorySystem
import VirtuV.Trajectory

/-!
# VirtuV.Footprint

What of a machine its run reads.

No word that is decoded reads data from memory, so of memory a run reads the
words it fetches and nothing else; and of what the stages keep between cycles
it reads the `alu_result`, in a jump that links.

* **memory** — machines that differ in bytes outside the words ahead go
  through the same run, and keep differing in those bytes alone;
* **the stages** — registers, `pc` and MMU decide a run up to the first jump
  that links before anything has been computed.
-/

namespace VirtuV

open Stateful
open Rv32i (opcode funct3 rd)

/-! ## memory -/

namespace MMU

/-- Since `origin` and `origin'`, which have one layout, every byte is the same
in the two MMUs or is what it was in each. -/
structure Agrees (origin origin' m m' : MMU) : Prop where
  layout : origin.SameLayout m
  layout' : origin.SameLayout m'
  memory : ∀ a : Nat, m'.physicalMemory.memory[a]? = m.physicalMemory.memory[a]? ∨
    m.physicalMemory.memory[a]? = origin.physicalMemory.memory[a]? ∧
      m'.physicalMemory.memory[a]? = origin'.physicalMemory.memory[a]?

namespace Agrees

variable {origin origin' m m' : MMU}

theorem sameLayout (h : Agrees origin origin' m m') : m.SameLayout m' :=
  ⟨h.layout'.pageTable.trans h.layout.pageTable.symm,
    h.layout'.privilegeMode.trans h.layout.privilegeMode.symm,
    h.layout'.size.trans h.layout.size.symm⟩

/-- A byte that was the same is the same. -/
theorem getElem?_eq (h : Agrees origin origin' m m') {a : Nat}
    (ha : origin'.physicalMemory.memory[a]? = origin.physicalMemory.memory[a]?) :
    m'.physicalMemory.memory[a]? = m.physicalMemory.memory[a]? := by
  rcases h.memory a with hsame | ⟨hm, hm'⟩
  · exact hsame
  · rw [hm, hm', ha]

end Agrees

/-- MMUs of one layout send an address to the same place. -/
theorem SameLayout.physical_eq {m m' : MMU} (h : m.SameLayout m') : m'.physical = m.physical := by
  funext va
  rw [physical, physical, h.pageTable]

/-- Where the byte an address reaches is the same, it is read alike. -/
theorem SameLayout.read_eq {m m' : MMU} (h : m.SameLayout m') {va : Word}
    (hbyte : m.Reaches false va → m'.physicalMemory.memory[(m.physical va).toNat]? =
      m.physicalMemory.memory[(m.physical va).toNat]?) : m'.read va = m.read va := by
  have hguard := congrFun (congrFun h.guard_eq false) va
  cases hg : m.guard false va with
  | some e => rw [read_of_guard_some hg, read_of_guard_some (hguard.trans hg)]
  | none =>
      have hreach := (guard_eq_none_iff m _ _).mp hg
      obtain ⟨b, hb⟩ := (read_ok_iff_reaches m va).mpr hreach
      have hgrants := ((guard_eq_none_iff m' _ _).mp (hguard.trans hg)).1
      rw [hb]
      rw [read_eq_ok_iff] at hb ⊢
      rw [h.physical_eq, hbyte hreach]
      exact ⟨hgrants, hb.2⟩

/-- A byte written in both MMUs is the same afterwards. -/
theorem coupled_write_agrees (origin origin' : MMU) (va : Word) (b : Byte) :
    Coupled (Agrees origin origin') (write va b) (write va b) := by
  intro m m' h
  have hguard := congrFun (congrFun h.sameLayout.guard_eq true) va
  cases hg : m.guard true va with
  | some e =>
      rw [run_write_of_guard_some b hg, run_write_of_guard_some b (hguard.trans hg)]
      exact ⟨rfl, h⟩
  | none =>
      have hreach := (guard_eq_none_iff m _ _).mp hg
      have hreach' := (guard_eq_none_iff m' _ _).mp (hguard.trans hg)
      have hkeeps := keeps_layout va b m
      have hkeeps' := keeps_layout va b m'
      have hlt := hreach.2
      have hlt' := hreach'.2
      rw [run_write_of_reaches b hreach] at hkeeps ⊢
      rw [run_write_of_reaches b hreach'] at hkeeps' ⊢
      refine ⟨rfl, IsTrans.trans _ _ _ h.layout hkeeps, IsTrans.trans _ _ _ h.layout' hkeeps',
        fun a => ?_⟩
      rw [h.sameLayout.physical_eq] at hlt' ⊢
      simp only [final_ok, store_memory]
      by_cases ha : (m.physical va).toNat = a
      · rw [← ha, List.getElem?_set_self hlt, List.getElem?_set_self hlt']
        exact .inl rfl
      · rw [List.getElem?_set_ne ha, List.getElem?_set_ne ha]
        exact h.memory a

theorem coupled_writeWord_agrees (origin origin' : MMU) (va w : Word) :
    Coupled (Agrees origin origin') (writeWord va w) (writeWord va w) :=
  .bind (coupled_write_agrees _ _ _ _) fun _ => .bind (coupled_write_agrees _ _ _ _) fun _ =>
    .bind (coupled_write_agrees _ _ _ _) fun _ => coupled_write_agrees _ _ _ _

/-- Where all bytes that the word's addresses reach are the same, the word is
read alike. -/
theorem SameLayout.readWord_eq {m m' : MMU} (h : m.SameLayout m') {va : Word}
    (hbytes : ∀ a ∈ wordAddresses va, m.Reaches false a →
      m'.physicalMemory.memory[(m.physical a).toNat]? =
        m.physicalMemory.memory[(m.physical a).toNat]?) : m'.readWord va = m.readWord va := by
  simp only [wordAddresses, List.forall_mem_cons] at hbytes
  obtain ⟨h0, h1, h2, h3, -⟩ := hbytes
  unfold readWord
  rw [h.read_eq h0, h.read_eq h1, h.read_eq h2, h.read_eq h3]

end MMU

namespace Pipeline

/-- Byte `a` of memory is one that the first `n` words from `pc` on are read
from, as far as these can be read. -/
def Footprint (s : Pipeline) (n a : Nat) : Prop :=
  ∃ k < n, s.Fetchable k ∧ ∃ va ∈ wordAddresses (s.ahead k),
    s.mmu.Reaches false va ∧ (s.mmu.physical va).toNat = a

/-- After any number of cycles `pc` is at a word ahead, all before it having
been readable. -/
theorem exists_pc_after (s : Pipeline) (n : Nat) :
    ∃ k ≤ n, s.Fetchable k ∧ (after runCycle n s).registerBank.pc = s.ahead k := by
  induction n with
  | zero =>
      exact ⟨0, Nat.le_refl 0, fun k hk => absurd hk (Nat.not_lt_zero k), s.ahead_zero.symm⟩
  | succ n ih =>
      obtain ⟨k, hk, hfetch, hpc⟩ := ih
      have hlayout := s.sameLayout_after n
      rw [after_succ]
      by_cases hread : s.mmu.WordReadable (s.ahead k)
      · have hread' : (after runCycle n s).mmu.WordReadable
            (after runCycle n s).registerBank.pc := by
          rw [hpc, hlayout.wordReadable_iff]
          exact hread
        refine ⟨k + 1, Nat.succ_le_succ hk, ?_, ?_⟩
        · exact Nat.forall_lt_succ_right.mpr ⟨hfetch, hread⟩
        · rw [pc_runCycle_of_readable hread', hpc, ahead_succ]
      · have hread' : ¬ (after runCycle n s).mmu.WordReadable
            (after runCycle n s).registerBank.pc := by
          rw [hpc, hlayout.wordReadable_iff]
          exact hread
        obtain ⟨-, -, -, hcore⟩ := runCycle_of_not_readable hread'
        have hbank := congrArg Core.registerBank hcore
        exact ⟨k, Nat.le_succ_of_le hk, hfetch, (congrArg RegisterBank.pc hbank).trans hpc⟩

end Pipeline

/-- Machines that agree but for bytes outside the footprint. -/
theorem Pipeline.over_after {s t : Pipeline} {n : Nat}
    (h : Core.Over (MMU.Agrees s.mmu t.mmu) s.core t.core)
    (hcode : ∀ a, s.Footprint n a →
      t.mmu.physicalMemory.memory[a]? = s.mmu.physicalMemory.memory[a]?) :
    (∀ k < n, outcome (runCycle.run (after runCycle k s)) =
        outcome (runCycle.run (after runCycle k t))) ∧
      ∀ k ≤ n, Core.Over (MMU.Agrees s.mmu t.mmu) (after runCycle k s).core
        (after runCycle k t).core := by
  have hstep : ∀ k < n, Core.Over (MMU.Agrees s.mmu t.mmu) (after runCycle k s).core
      (after runCycle k t).core →
      outcome (Core.cycle.run (after runCycle k s).core) =
          outcome (Core.cycle.run (after runCycle k t).core) ∧
        Core.Over (MMU.Agrees s.mmu t.mmu) (after runCycle (k + 1) s).core
          (after runCycle (k + 1) t).core := by
    intro k hk hover
    have hagrees : MMU.Agrees s.mmu t.mmu (after runCycle k s).mmu (after runCycle k t).mmu :=
      hover.mmu
    obtain ⟨j, hj, hfetch, hpc⟩ := s.exists_pc_after k
    have hread : (after runCycle k t).mmu.readWord (after runCycle k s).registerBank.pc =
        (after runCycle k s).mmu.readWord (after runCycle k s).registerBank.pc := by
      refine hagrees.sameLayout.readWord_eq fun va hva hreach => ?_
      rw [hagrees.layout.physical_eq]
      rw [hagrees.layout.reaches_iff] at hreach
      rw [hpc] at hva
      exact hagrees.getElem?_eq (hcode _ ⟨j, by omega, hfetch, va, hva, hreach, rfl⟩)
    rw [after_succ, after_succ, core_runCycle, core_runCycle]
    exact Core.over_cycle (MMU.coupled_writeWord_agrees _ _) hover hread
  have hall : ∀ k ≤ n, Core.Over (MMU.Agrees s.mmu t.mmu) (after runCycle k s).core
      (after runCycle k t).core := by
    intro k hk
    induction k with
    | zero => exact h
    | succ k ih => exact (hstep k hk (ih (Nat.le_of_lt hk))).2
  refine ⟨fun k hk => ?_, hall⟩
  rw [(runCycle_core _ _ rfl).1, (runCycle_core (after runCycle k t) _ rfl).1]
  exact (hstep k hk (hall k (Nat.le_of_lt hk))).1

/-- **The footprint in memory**: a machine with other bytes outside the words
that the first `n` cycles fetch reports the same in these cycles and has the
same registers and `pc` after each of them; and every byte is then the same in
both machines, or in each what it was at first. -/
theorem runCycle_footprint {s t : Pipeline} (hbank : t.registerBank = s.registerBank)
    (hresult : t.executeStage.result = s.executeStage.result) (hlayout : s.mmu.SameLayout t.mmu)
    (n : Nat) (hcode : ∀ a, s.Footprint n a →
      t.mmu.physicalMemory.memory[a]? = s.mmu.physicalMemory.memory[a]?) :
    (∀ k < n, outcome (Pipeline.runCycle.run (after Pipeline.runCycle k s)) =
        outcome (Pipeline.runCycle.run (after Pipeline.runCycle k t))) ∧
      ∀ k ≤ n,
        (after Pipeline.runCycle k t).registerBank = (after Pipeline.runCycle k s).registerBank ∧
        ∀ a : Nat, (after Pipeline.runCycle k t).mmu.physicalMemory.memory[a]? =
            (after Pipeline.runCycle k s).mmu.physicalMemory.memory[a]? ∨
          (after Pipeline.runCycle k s).mmu.physicalMemory.memory[a]? =
              s.mmu.physicalMemory.memory[a]? ∧
            (after Pipeline.runCycle k t).mmu.physicalMemory.memory[a]? =
              t.mmu.physicalMemory.memory[a]? := by
  have hstart : Core.Over (MMU.Agrees s.mmu t.mmu) s.core t.core :=
    ⟨⟨refl _, hlayout, fun _ => .inr ⟨rfl, rfl⟩⟩, hbank, hresult⟩
  obtain ⟨hout, hover⟩ := Pipeline.over_after hstart hcode
  exact ⟨hout, fun k hk => ⟨(hover k hk).registerBank, (hover k hk).mmu.memory⟩⟩

/-- A CPU of eight bytes with `addi x1, x0, 5` loaded, and then either what
there was or the word that ends a program. -/
def fiveThenZero : Pipeline := (CPU.boot 8 ⟨0, 0, 0⟩ [0x93, 0x00, 0x50, 0x00]).pipeline

@[inherit_doc fiveThenZero] def fiveThenEnd : Pipeline :=
  (CPU.boot 8 ⟨0, 0, 0⟩ [0x93, 0x00, 0x50, 0x00, 0x6F, 0x00, 0x00, 0x00]).pipeline

/-- Their first cycles do not tell them apart. -/
theorem runCycle_footprint_five :
    (after Pipeline.runCycle 1 fiveThenEnd).registerBank =
      (after Pipeline.runCycle 1 fiveThenZero).registerBank := by
  have hzero : CPU.Attainable 8 ⟨0, 0, 0⟩ (.boot 8 ⟨0, 0, 0⟩ [0x93, 0x00, 0x50, 0x00]) :=
    .loadProgram (.contents _) .new
  have hend : CPU.Attainable 8 ⟨0, 0, 0⟩
      (.boot 8 ⟨0, 0, 0⟩ [0x93, 0x00, 0x50, 0x00, 0x6F, 0x00, 0x00, 0x00]) :=
    .loadProgram (.contents _) .new
  have hlayout : fiveThenZero.mmu.SameLayout fiveThenEnd.mmu :=
    ⟨hend.sameLayout.pageTable.trans hzero.sameLayout.pageTable.symm,
      hend.sameLayout.privilegeMode.trans hzero.sameLayout.privilegeMode.symm,
      hend.sameLayout.size.trans hzero.sameLayout.size.symm⟩
  refine ((runCycle_footprint (s := fiveThenZero) (t := fiveThenEnd) rfl rfl hlayout 1 ?_).2 1
    (Nat.le_refl 1)).1
  rintro a ⟨k, hk, -, va, hva, -, rfl⟩
  obtain rfl : k = 0 := by omega
  have hpc : fiveThenZero.ahead 0 = 0 := by decide +kernel
  simp only [hpc, wordAddresses, List.mem_cons, List.not_mem_nil, or_false] at hva
  rcases hva with rfl | rfl | rfl | rfl <;> decide +kernel

/-! ## the stages -/

/-- The words whose execution writes `alu_result`. -/
def WritesAlu (w : Word) : Prop :=
  (opcode w = 0x33 ∧ funct3 w = 0) ∨ opcode w = 0x13 ∨ opcode w = 0x23 ∨ opcode w = 0x37

/-- The jumps that link: they do not end the program, and have a destination. -/
def SavesLink (w : Word) : Prop := opcode w = 0x6F ∧ getImmediateJ ⟨w⟩ ≠ 0 ∧ rd w ≠ 0

namespace Core

variable {w : Word} {c c' : Core}

theorem result_zoom_mmu (x : EStateM Exception MMU Unit) (c : Core) :
    (final ((zoom mmu (fun mmu c => { c with mmu }) x).run c)).result = c.result := by
  rw [final_zoom]

/-- The words that write `alu_result` write what the registers decide. -/
theorem aluResult_finish_of_writesAlu (h : WritesAlu w) (hbank : c.registerBank = c'.registerBank) :
    (final ((finish w).run c)).result.aluResult = (final ((finish w).run c')).result.aluResult := by
  have hx : c.x = c'.x := congrArg RegisterBank.x hbank
  rcases h with ⟨hop, hf⟩ | hop | hop | hop
  · rw [run_finish_reg c hop (if_pos hf), run_finish_reg c' hop (if_pos hf), hx]
    rfl
  · rw [run_finish_imm c hop, run_finish_imm c' hop, hx]
    rfl
  · rw [run_finish_store c hop, run_finish_store c' hop, result_zoom_mmu, result_zoom_mmu, hx]
    rfl
  · rw [run_finish_upper c hop, run_finish_upper c' hop]
    rfl

/-- The others leave it. -/
theorem aluResult_finish_of_not_writesAlu (h : ¬ WritesAlu w) :
    (final ((finish w).run c)).result.aluResult = c.result.aluResult := by
  rcases opcode_cases w with hop | hop | hop | hop | hop | hop | hop
  · have hf : funct3 w ≠ 0 := fun hf => h (.inl ⟨hop, hf⟩)
    rw [run_finish_reg_error c hop hf]
    rfl
  · exact absurd (.inr (.inl hop)) h
  · exact absurd (.inr (.inr (.inl hop))) h
  · cases ht : takesB w c.x with
    | some taken => rw [run_finish_branch c hop ht]; rfl
    | none => rw [run_finish_branch_error c hop ht]; rfl
  · exact absurd (.inr (.inr (.inr hop))) h
  · by_cases hi : getImmediateJ ⟨w⟩ = 0
    · rw [run_finish_jump_end c hop hi]; rfl
    · rw [run_finish_jump c hop hi]; rfl
  · rw [run_finish_unsupported c hop]
    rfl

/-- But for the link of a jump, the architectural state decides what becomes of
it. -/
theorem sameArch_finish (h : SameArch c c')
    (hlink : SavesLink w → c.result.aluResult = c'.result.aluResult) :
    outcome ((finish w).run c) = outcome ((finish w).run c') ∧
      SameArch (final ((finish w).run c)) (final ((finish w).run c')) := by
  obtain ⟨bank, m, r⟩ := c
  obtain ⟨_, _, r'⟩ := c'
  obtain ⟨rfl, rfl⟩ := h
  rcases opcode_cases w with hop | hop | hop | hop | hop | hop | hop
  · by_cases hf : funct3 w = 0
    · rw [run_finish_reg _ hop (if_pos hf), run_finish_reg _ hop (if_pos hf)]
      exact ⟨rfl, rfl, rfl⟩
    · rw [run_finish_reg_error _ hop hf, run_finish_reg_error _ hop hf]
      exact ⟨rfl, rfl, rfl⟩
  · rw [run_finish_imm _ hop, run_finish_imm _ hop]
    exact ⟨rfl, rfl, rfl⟩
  · rw [run_finish_store _ hop, run_finish_store _ hop, outcome_zoom, outcome_zoom, final_zoom,
      final_zoom]
    exact ⟨rfl, rfl, rfl⟩
  · cases ht : takesB w bank.x with
    | some taken =>
        rw [run_finish_branch ⟨bank, m, r⟩ hop ht, run_finish_branch ⟨bank, m, r'⟩ hop ht]
        exact ⟨rfl, rfl, rfl⟩
    | none =>
        rw [run_finish_branch_error ⟨bank, m, r⟩ hop ht,
          run_finish_branch_error ⟨bank, m, r'⟩ hop ht]
        exact ⟨rfl, rfl, rfl⟩
  · rw [run_finish_upper _ hop, run_finish_upper _ hop]
    exact ⟨rfl, rfl, rfl⟩
  · by_cases hi : getImmediateJ ⟨w⟩ = 0
    · rw [run_finish_jump_end _ hop hi, run_finish_jump_end _ hop hi]
      exact ⟨rfl, rfl, rfl⟩
    · rw [run_finish_jump _ hop hi, run_finish_jump _ hop hi]
      refine ⟨rfl, ?_, rfl⟩
      by_cases hrd : rd w = 0
      · simp only [final_ok, setX, RegisterBank.setX, hrd]
        rfl
      · rw [hlink ⟨hop, hi, hrd⟩]
        rfl
  · rw [run_finish_unsupported _ hop, run_finish_unsupported _ hop]
    exact ⟨rfl, rfl, rfl⟩

/-- A link tells different `alu_result`s apart. -/
theorem aluResult_eq_of_link (h : SavesLink w)
    (hbank : (final ((finish w).run c)).registerBank = (final ((finish w).run c')).registerBank) :
    c.result.aluResult = c'.result.aluResult := by
  obtain ⟨hop, hi, hrd⟩ := h
  rw [run_finish_jump _ hop hi, run_finish_jump _ hop hi] at hbank
  have hx := congrArg (RegisterBank.x · (rd w)) hbank
  simp only [final_ok, setX, RegisterBank.setX_x, true_and, if_pos hrd] at hx
  exact hx

end Core

namespace Pipeline

variable {s t : Pipeline} {n : Nat}

/-- The cycle after the first `k` fetches the word `w`. -/
def Fetches (s : Pipeline) (k : Nat) (w : Word) : Prop :=
  (after runCycle k s).mmu.readWord (after runCycle k s).registerBank.pc = .ok w

/-- One of the first `k` cycles has written `alu_result`. -/
def Computed (s : Pipeline) (k : Nat) : Prop := ∃ j < k, ∃ w, s.Fetches j w ∧ WritesAlu w

/-- Every jump that links in the first `n` cycles links something computed in
an earlier one. -/
def LinksComputed (s : Pipeline) (n : Nat) : Prop :=
  ∀ k < n, ∀ w, s.Fetches k w → SavesLink w → s.Computed k

theorem computed_succ_iff (k : Nat) :
    s.Computed (k + 1) ↔ s.Computed k ∨ ∃ w, s.Fetches k w ∧ WritesAlu w := by
  constructor
  · rintro ⟨j, hj, hw⟩
    rcases Nat.lt_succ_iff_lt_or_eq.mp hj with hlt | rfl
    · exact .inl ⟨j, hlt, hw⟩
    · exact .inr hw
  · rintro (⟨j, hj, hw⟩ | hw)
    · exact ⟨j, Nat.lt_succ_of_lt hj, hw⟩
    · exact ⟨k, Nat.lt_succ_self k, hw⟩

/-- The core after a cycle more, its word fetched. -/
theorem core_after_succ {k : Nat} {w : Word} (h : s.Fetches k w) :
    (after runCycle (k + 1) s).core =
      final ((Core.finish w).run (after runCycle k s).core.advance) := by
  rw [after_succ, core_runCycle_of_fetch h]

/-- Until something is computed `alu_result` is what it was at first. -/
theorem aluResult_after_of_not_computed {k : Nat} (h : ¬ s.Computed k) :
    (after runCycle k s).core.result.aluResult = s.core.result.aluResult := by
  induction k with
  | zero => rfl
  | succ k ih =>
      rw [computed_succ_iff, not_or] at h
      obtain ⟨hbefore, hnow⟩ := h
      cases hw : (after runCycle k s).mmu.readWord (after runCycle k s).registerBank.pc with
      | ok w =>
          have hnot : ¬ WritesAlu w := fun hwrites => hnow ⟨w, hw, hwrites⟩
          rw [core_after_succ hw, Core.aluResult_finish_of_not_writesAlu hnot]
          exact ih hbefore
      | error e =>
          obtain ⟨s', hrun, hcore⟩ := runCycle_of_fetch_error hw
          rw [after_succ, hrun, final_error, hcore]
          exact ih hbefore

/-- A cycle of two machines with the same architectural state, in which
`alu_result` is the same as far as the word links it. -/
theorem sameArch_runCycle (h : Core.SameArch s.core t.core)
    (hlink : ∀ w, s.mmu.readWord s.registerBank.pc = .ok w → SavesLink w →
      s.core.result.aluResult = t.core.result.aluResult) :
    outcome (runCycle.run s) = outcome (runCycle.run t) ∧
      Core.SameArch (final (runCycle.run s)).core (final (runCycle.run t)).core := by
  have hread : t.mmu.readWord t.registerBank.pc = s.mmu.readWord s.registerBank.pc := h.readWord_eq
  cases hw : s.mmu.readWord s.registerBank.pc with
  | ok w =>
      rw [outcome_runCycle_of_fetch hw, outcome_runCycle_of_fetch (hread.trans hw),
        core_runCycle_of_fetch hw, core_runCycle_of_fetch (hread.trans hw)]
      exact Core.sameArch_finish h.advance (hlink w hw)
  | error e =>
      obtain ⟨s', hrun, hcore⟩ := runCycle_of_fetch_error hw
      obtain ⟨t', hrun', hcore'⟩ := runCycle_of_fetch_error (hread.trans hw)
      rw [hrun, hrun', final_error, final_error, hcore, hcore']
      exact ⟨rfl, h⟩

/-- Where every link is computed, the architectural state decides the cycles;
and once something is computed, `alu_result` too is the same. -/
theorem sameArch_after (h : Core.SameArch s.core t.core) (hlinks : s.LinksComputed n) :
    ∀ k ≤ n, Core.SameArch (after runCycle k s).core (after runCycle k t).core ∧
      (s.Computed k → (after runCycle k s).core.result.aluResult =
        (after runCycle k t).core.result.aluResult) := by
  intro k hk
  induction k with
  | zero =>
      refine ⟨h, ?_⟩
      rintro ⟨j, hj, -⟩
      exact absurd hj (Nat.not_lt_zero j)
  | succ k ih =>
      obtain ⟨hsame, halu⟩ := ih (Nat.le_of_lt hk)
      have hcycle := (sameArch_runCycle hsame fun w hw hsaves => halu (hlinks k hk w hw hsaves)).2
      rw [after_succ, after_succ]
      refine ⟨hcycle, fun hcomputed => ?_⟩
      rw [← after_succ, ← after_succ]
      have hread := hsame.readWord_eq
      cases hw : (after runCycle k s).mmu.readWord (after runCycle k s).registerBank.pc with
      | ok w =>
          rw [core_after_succ hw, core_after_succ (s := t) (hread.trans hw)]
          by_cases hwrites : WritesAlu w
          · exact Core.aluResult_finish_of_writesAlu hwrites hsame.advance.registerBank
          · rw [Core.aluResult_finish_of_not_writesAlu hwrites,
              Core.aluResult_finish_of_not_writesAlu hwrites]
            refine halu ?_
            rcases (computed_succ_iff k).mp hcomputed with hbefore | ⟨v, hv, hv'⟩
            · exact hbefore
            · obtain rfl : w = v := Except.ok.inj (hw.symm.trans hv)
              exact absurd hv' hwrites
      | error e =>
          obtain ⟨s', hrun, hcore⟩ := runCycle_of_fetch_error hw
          obtain ⟨t', hrun', hcore'⟩ :=
            runCycle_of_fetch_error (s := after runCycle k t) (hread.trans hw)
          rw [after_succ, after_succ, hrun, hrun', final_error, final_error, hcore, hcore']
          refine halu ?_
          rcases (computed_succ_iff k).mp hcomputed with hbefore | ⟨v, hv, -⟩
          · exact hbefore
          · rw [Fetches, hw] at hv
            contradiction

/-- Where machines with different `alu_result`s stay the same, every link is
computed. -/
theorem linksComputed_of_sameArch (hne : s.core.result.aluResult ≠ t.core.result.aluResult)
    (h : ∀ k ≤ n, Core.SameArch (after runCycle k s).core (after runCycle k t).core) :
    s.LinksComputed n := by
  intro k hk w hw hsaves
  by_contra hnot
  have hread : ∀ j ≤ n, ∀ v, t.Fetches j v ↔ s.Fetches j v := by
    intro j hj v
    have heq := (h j hj).readWord_eq
    exact ⟨heq.symm.trans, heq.trans⟩
  have hnot' : ¬ t.Computed k := by
    rintro ⟨j, hj, v, hv, hwrites⟩
    exact hnot ⟨j, hj, v, (hread j (by omega) v).mp hv, hwrites⟩
  have hbank := (h (k + 1) hk).registerBank
  rw [core_after_succ hw, core_after_succ ((hread k (Nat.le_of_lt hk) w).mpr hw)] at hbank
  have halu := Core.aluResult_eq_of_link hsaves hbank
  apply hne
  rw [← aluResult_after_of_not_computed hnot, ← aluResult_after_of_not_computed hnot']
  exact halu

/-- Registers, `pc` and MMU decide the first `n` cycles. -/
def Determined (s : Pipeline) (n : Nat) : Prop :=
  ∀ t : Pipeline, t.registerBank = s.registerBank → t.mmu = s.mmu →
    (∀ k < n, outcome (runCycle.run (after runCycle k t)) =
      outcome (runCycle.run (after runCycle k s))) ∧
    ∀ k ≤ n, (after runCycle k t).registerBank = (after runCycle k s).registerBank ∧
      (after runCycle k t).mmu = (after runCycle k s).mmu

theorem determined_iff (s : Pipeline) (n : Nat) : s.Determined n ↔ s.LinksComputed n := by
  constructor
  · intro h
    let t : Pipeline := { s with executeStage := { s.executeStage with
      result := { s.executeStage.result with aluResult := s.executeStage.result.aluResult + 1 } } }
    have hne : s.core.result.aluResult ≠ t.core.result.aluResult := by
      intro heq
      have hone : s.executeStage.result.aluResult + 0 = s.executeStage.result.aluResult + 1 :=
        (BitVec.add_zero _).trans heq
      exact absurd (add_left_cancel hone) (by decide)
    obtain ⟨-, hsame⟩ := h t rfl rfl
    exact linksComputed_of_sameArch hne fun k hk =>
      ⟨(hsame k hk).1.symm, (hsame k hk).2.symm⟩
  · intro hlinks t hbank hmmu
    have hall := sameArch_after (t := t) ⟨hbank.symm, hmmu.symm⟩ hlinks
    refine ⟨fun k hk => ?_, fun k hk => ?_⟩
    · obtain ⟨hsame, halu⟩ := hall k (Nat.le_of_lt hk)
      exact (sameArch_runCycle hsame fun w hw hsaves => halu (hlinks k hk w hw hsaves)).1.symm
    · exact ⟨(hall k hk).1.registerBank.symm, (hall k hk).1.mmu.symm⟩

end Pipeline

namespace CPU

variable (memorySize : Nat) (garbage garbage' : Uninitialized) (bytes : List Byte)

/-- What a fresh CPU has loaded does not depend on what was in the place of its
results, and its `alu_result` is that. -/
theorem boot_garbage :
    (boot memorySize garbage' bytes).pipeline.registerBank =
        (boot memorySize garbage bytes).pipeline.registerBank ∧
      (boot memorySize garbage' bytes).pipeline.mmu =
        (boot memorySize garbage bytes).pipeline.mmu ∧
      (boot memorySize garbage bytes).pipeline.executeStage.result.aluResult =
        garbage.execute := by
  have hmmu : (CPU.new memorySize garbage').pipeline.mmu =
      (CPU.new memorySize garbage).pipeline.mmu := rfl
  simp only [boot, loadProgram, hmmu]
  cases (copyToMemory 0 bytes).run (CPU.new memorySize garbage).pipeline.mmu with
  | ok _ _ => exact ⟨rfl, rfl, rfl⟩
  | error _ _ => exact ⟨rfl, rfl, rfl⟩

end CPU

/-- **What the stages keep**: registers, `pc` and MMU decide the first `n`
cycles, outcomes included, exactly if each of them that links comes after one
that has computed something.  In the same case, and no other, they are the same
for a fresh CPU with a program loaded whatever was in the place of the results
that no constructor initializes. -/
theorem runCycle_determined_iff (n : Nat) :
    (∀ s : Pipeline, s.Determined n ↔ s.LinksComputed n) ∧
    ∀ memorySize garbage bytes,
      (∀ garbage', ∀ k ≤ n,
        (after Pipeline.runCycle k (CPU.boot memorySize garbage' bytes).pipeline).registerBank =
          (after Pipeline.runCycle k (CPU.boot memorySize garbage bytes).pipeline).registerBank ∧
        (after Pipeline.runCycle k (CPU.boot memorySize garbage' bytes).pipeline).mmu =
          (after Pipeline.runCycle k (CPU.boot memorySize garbage bytes).pipeline).mmu) ↔
      (CPU.boot memorySize garbage bytes).pipeline.LinksComputed n := by
  refine ⟨fun s => s.determined_iff n, fun memorySize garbage bytes => ?_⟩
  constructor
  · intro h
    obtain ⟨-, -, halu⟩ := CPU.boot_garbage memorySize garbage garbage bytes
    obtain ⟨-, -, halu'⟩ := CPU.boot_garbage memorySize
      { garbage with execute := garbage.execute + 1 } garbage bytes
    refine Pipeline.linksComputed_of_sameArch (fun heq => ?_) fun k hk =>
      ⟨(h { garbage with execute := garbage.execute + 1 } k hk).1.symm,
        (h { garbage with execute := garbage.execute + 1 } k hk).2.symm⟩
    have hone : garbage.execute + 0 = garbage.execute + 1 :=
      (BitVec.add_zero _).trans (halu.symm.trans (heq.trans halu'))
    exact absurd (add_left_cancel hone) (by decide)
  · intro hlinks garbage' k hk
    obtain ⟨hbank, hmmu, -⟩ := CPU.boot_garbage memorySize garbage garbage' bytes
    exact ((Pipeline.determined_iff _ n).mpr hlinks _ hbank hmmu).2 k hk

end VirtuV
