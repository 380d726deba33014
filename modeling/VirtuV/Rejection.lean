import VirtuV.Cycle

/-!
# VirtuV.Rejection

What becomes of the words that encode no implemented instruction.

The decoder looks at the opcode alone, the execute stage at the `funct3` of R
and B instructions and at `funct7` only to tell a subtraction from an addition.
A word outside the implemented set that passes these tests is executed as
whatever instruction its format shares them with, and a store of any width as a
word store.  `runCycle_rejects_iff` says exactly when such a word is rejected.
-/

namespace VirtuV

open Stateful
open Bits
open Rv32i (Registers opcode funct3 funct7 rs2)

/-! ## the implemented words -/

/-- The words that encode ADD or SUB, an I instruction (for the shifts, with a
clear `funct7`), LUI, SW, BEQ or BNE, or JAL. -/
def Implemented (w : Word) : Prop :=
  (opcode w = 0x33 ∧ funct3 w = 0 ∧ (funct7 w = 0x00 ∨ funct7 w = 0x20)) ∨
  (opcode w = 0x13 ∧ (funct3 w = 1 ∨ funct3 w = 5 → funct7 w = 0x00)) ∨
  opcode w = 0x37 ∨
  (opcode w = 0x23 ∧ funct3 w = 2) ∨
  (opcode w = 0x63 ∧ (funct3 w = 0 ∨ funct3 w = 1)) ∨
  opcode w = 0x6F

instance (w : Word) : Decidable (Implemented w) := by unfold Implemented; infer_instance

/-- The words whose opcode the decoder refuses, or whose `funct3` the execute
stage does. -/
def Refused (w : Word) : Prop :=
  opcode w ∉ [0x33, 0x13, 0x23, 0x63, 0x37, 0x6F] ∨
  (opcode w = 0x33 ∧ funct3 w ≠ 0) ∨
  (opcode w = 0x63 ∧ funct3 w ≠ 0 ∧ funct3 w ≠ 1)

section Refused

variable {w : Word}

theorem refused_reg_iff (h : opcode w = 0x33) : Refused w ↔ funct3 w ≠ 0 := by simp [Refused, h]

/-- A branch is refused when its `funct3` names no comparison. -/
theorem refused_branch_iff (h : opcode w = 0x63) (x : Registers) :
    Refused w ↔ takesB w x = none := by
  rw [takesB_eq_none_iff]
  simp [Refused, h]

theorem not_refused_store (h : opcode w = 0x23) : ¬ Refused w := by simp [Refused, h]

theorem refused_of_decode_error
    (h : decode w = .error (.invalidArgument "Unsupported instruction format")) : Refused w := by
  refine .inl fun hmem => ?_
  simp only [List.mem_cons, List.not_mem_nil, or_false] at hmem
  rcases hmem with h' | h' | h' | h' | h' | h' <;> simp [decode, h'] at h

end Refused

/-! ## stores that fault -/

namespace MMU

/-- A store of `data` faults having changed no byte: the bytes before the one
that does not reach memory are already there. -/
def StoreFaults (mmu : MMU) (va data : Word) : Prop :=
  ∃ k < 4, ¬ mmu.Reaches true (va + BitVec.ofNat 32 k) ∧
    ∀ i < k, mmu.Reaches true (va + BitVec.ofNat 32 i) ∧
      mmu.physicalMemory.memory[(mmu.physical (va + BitVec.ofNat 32 i)).toNat]? =
        some (leByte data i)

/-- A word write throws with memory unchanged exactly when its store faults
having changed no byte. -/
theorem writeWord_faults_iff (mmu : MMU) (va data : Word) :
    (∃ e, outcome ((writeWord va data).run mmu) = .error e) ∧
      (final ((writeWord va data).run mmu)).physicalMemory = mmu.physicalMemory ↔
    mmu.StoreFaults va data := by
  rcases run_writeWord_cases mmu va data with ⟨hall, hrun⟩ | ⟨k, hk, hbelow, hstop, e, -, hrun⟩
  · rw [hrun]
    constructor
    · rintro ⟨⟨e, he⟩, -⟩
      contradiction
    · rintro ⟨k, hk, hstop, -⟩
      exact absurd (hall k hk) hstop
  · rw [hrun]
    have hsame := storeBytes_memory_eq_iff data (Nat.le_of_lt hk) hbelow
    constructor
    · rintro ⟨-, hmem⟩
      exact ⟨k, hk, hstop, fun i hi => ⟨hbelow i hi, hsame.mp hmem i hi⟩⟩
    · rintro ⟨k', hk', hstop', hbelow'⟩
      -- both are the first byte that does not reach memory
      have hle : k ≤ k' := Nat.le_of_not_lt fun hlt => hstop' (hbelow k' hlt)
      have hge : k' ≤ k := Nat.le_of_not_lt fun hlt => hstop (hbelow' k hlt).1
      obtain rfl : k = k' := Nat.le_antisymm hle hge
      exact ⟨⟨e, rfl⟩, hsame.mpr fun i hi => (hbelow' i hi).2⟩

end MMU

/-! ## the rejected words -/

/-- The run ended in an exception and left every register and every byte of
memory as in `c`. -/
def Rejects (r : EStateM.Result Exception Core Unit) (c : Core) : Prop :=
  (∃ e, outcome r = .error e) ∧
    (final r).registerBank.registers = c.registerBank.registers ∧
    (final r).mmu.physicalMemory = c.mmu.physicalMemory

namespace Core

theorem not_rejects_ok (c c' : Core) : ¬ Rejects (.ok () c') c := by
  rintro ⟨⟨e, he⟩, -⟩
  contradiction

/-- A store is rejected exactly when it faults having changed no byte. -/
theorem store_rejects_iff {w : Word} (h : opcode w = 0x23) (c : Core) :
    Rejects ((finish w).run c) c ↔
      c.mmu.StoreFaults (storeAddress w c.x) (c.x (rs2 w)) := by
  rw [run_finish_store c h, ← MMU.writeWord_faults_iff, Rejects, outcome_zoom, final_zoom]
  exact and_congr_right fun _ => and_iff_right rfl

/-- The rest of a cycle rejects a word outside the implemented set exactly when
it is refused, or a store that faults having changed no byte. -/
theorem finish_rejects_iff {w : Word} (hw : ¬ Implemented w) (c : Core) :
    Rejects ((finish w).run c) c ↔ Refused w ∨
      opcode w = 0x23 ∧ c.mmu.StoreFaults (storeAddress w c.x) (c.x (rs2 w)) := by
  rcases opcode_cases w with h | h | h | h | h | h | h
  · by_cases hf : funct3 w = 0
    · rw [run_finish_reg c h (if_pos hf)]
      simp [not_rejects_ok, Refused, h, hf]
    · rw [run_finish_reg_error c h hf]
      exact ⟨fun _ => .inl ((refused_reg_iff h).mpr hf), fun _ => ⟨⟨_, rfl⟩, rfl, rfl⟩⟩
  · rw [run_finish_imm c h]
    simp [not_rejects_ok, Refused, h]
  · rw [store_rejects_iff h c]
    exact ⟨fun hfaults => .inr ⟨h, hfaults⟩,
      fun hor => (hor.resolve_left (not_refused_store h)).2⟩
  · -- a branch outside the implemented set is one whose `funct3` is refused
    have hf : funct3 w ≠ 0 ∧ funct3 w ≠ 1 := by
      constructor
      · exact fun h0 => hw (.inr (.inr (.inr (.inr (.inl ⟨h, .inl h0⟩)))))
      · exact fun h1 => hw (.inr (.inr (.inr (.inr (.inl ⟨h, .inr h1⟩)))))
    have ht : takesB w c.x = none := (takesB_eq_none_iff w c.x).mpr (not_or.mpr hf)
    rw [run_finish_branch_error c h ht]
    exact ⟨fun _ => .inl ((refused_branch_iff h c.x).mpr ht), fun _ => ⟨⟨_, rfl⟩, rfl, rfl⟩⟩
  · rw [run_finish_upper c h]
    simp [not_rejects_ok, Refused, h]
  · exact absurd (.inr (.inr (.inr (.inr (.inr h))))) hw
  · rw [run_finish_unsupported c h]
    exact ⟨fun _ => .inl (refused_of_decode_error h), fun _ => ⟨⟨_, rfl⟩, rfl, rfl⟩⟩

end Core

/-- **Rejection**: a cycle on a fetched word that encodes no implemented
instruction throws with every register and every byte of memory unchanged
exactly when the decoder refuses its opcode, the execute stage refuses its
`funct3`, or it is a store, of whatever width, whose word write faults having
changed no byte. -/
theorem runCycle_rejects_iff (s : Pipeline) (w : Word)
    (hfetch : s.mmu.readWord s.registerBank.pc = .ok w) (hw : ¬ Implemented w) :
    ((∃ e, outcome (Pipeline.runCycle.run s) = .error e) ∧
      (final (Pipeline.runCycle.run s)).registerBank.registers = s.registerBank.registers ∧
      (final (Pipeline.runCycle.run s)).mmu.physicalMemory = s.mmu.physicalMemory) ↔
    Refused w ∨ opcode w = 0x23 ∧
      s.mmu.StoreFaults (storeAddress w s.registerBank.x) (s.registerBank.x (rs2 w)) := by
  have hout := Pipeline.outcome_runCycle_of_fetch hfetch
  have hcore := Pipeline.core_runCycle_of_fetch hfetch
  have hbank := congrArg Core.registerBank hcore
  have hmmu := congrArg Core.mmu hcore
  have hiff := Core.finish_rejects_iff hw s.core.advance
  rw [Rejects, ← hout, ← hbank, ← hmmu] at hiff
  exact hiff

/-- The invalid instruction of the test suite is rejected. -/
theorem runCycle_rejects_invalid :
    (∃ e, outcome (Pipeline.runCycle.run
        (CPU.boot 8 ⟨0, 0, 0⟩ [0xFF, 0xFF, 0xFF, 0xFF]).pipeline) = .error e) ∧
      (final (Pipeline.runCycle.run
        (CPU.boot 8 ⟨0, 0, 0⟩ [0xFF, 0xFF, 0xFF, 0xFF]).pipeline)).mmu.physicalMemory =
        ⟨[0xFF, 0xFF, 0xFF, 0xFF, 0, 0, 0, 0]⟩ := by
  obtain ⟨hthrows, -, hmem⟩ := (runCycle_rejects_iff
    (CPU.boot 8 ⟨0, 0, 0⟩ [0xFF, 0xFF, 0xFF, 0xFF]).pipeline 0xFFFFFFFF (by decide +kernel)
    (by decide)).mpr (.inl (.inl (by decide)))
  refine ⟨hthrows, ?_⟩
  rw [hmem]
  decide +kernel

/-- `srai x1, x1, 1` is executed as a logical shift, `mul x1, x1, x1` as an
addition and `sb x0, 0(x0)` as a word store: none is implemented, and none is
rejected. -/
theorem runCycle_accepts_others :
    (¬ Implemented 0x4010D093 ∧ outcome (Pipeline.runCycle.run
      (CPU.boot 8 ⟨0, 0, 0⟩ [0x93, 0xD0, 0x10, 0x40]).pipeline) = .ok ()) ∧
    (¬ Implemented 0x021080B3 ∧ outcome (Pipeline.runCycle.run
      (CPU.boot 8 ⟨0, 0, 0⟩ [0xB3, 0x80, 0x10, 0x02]).pipeline) = .ok ()) ∧
    (¬ Implemented 0x00000023 ∧ outcome (Pipeline.runCycle.run
      (CPU.boot 8 ⟨0, 0, 0⟩ [0x23, 0x00, 0x00, 0x00]).pipeline) = .ok ()) ∧
    ¬ ∀ s w, s.mmu.readWord s.registerBank.pc = .ok w → ¬ Implemented w →
      ∃ e, outcome (Pipeline.runCycle.run s) = .error e := by
  have hsrai : outcome (Pipeline.runCycle.run
      (CPU.boot 8 ⟨0, 0, 0⟩ [0x93, 0xD0, 0x10, 0x40]).pipeline) = .ok () := by decide +kernel
  refine ⟨⟨by decide, hsrai⟩, by decide +kernel, by decide +kernel, fun h => ?_⟩
  obtain ⟨e, he⟩ := h (CPU.boot 8 ⟨0, 0, 0⟩ [0x93, 0xD0, 0x10, 0x40]).pipeline 0x4010D093
    (by decide +kernel) (by decide)
  rw [hsrai] at he
  contradiction

end VirtuV
