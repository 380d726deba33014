import VirtuV.Integrity

/-!
# VirtuV.History

What earlier cycles leave behind that a later one can see.

Every format overwrites some fields of the execute stage's `result` and leaves
the others as an earlier cycle wrote them, so the result handed on to the
memory and write-back stages can carry that cycle along.  `SameNext` says that
two pipelines with the same architectural state cannot be told apart by their
next cycle, and `runCycle_history` when that is so.
-/

namespace VirtuV

open Stateful
open Rv32i (opcode funct3)

/-! ## what a format leaves unwritten -/

/-- The words the execute stage does not throw on. -/
def Executes (w : Word) : Prop :=
  (opcode w = 0x33 ∧ funct3 w = 0) ∨ opcode w = 0x13 ∨ opcode w = 0x23 ∨
  (opcode w = 0x63 ∧ (funct3 w = 0 ∨ funct3 w = 1)) ∨ opcode w = 0x37 ∨
  (opcode w = 0x6F ∧ getImmediateJ ⟨w⟩ ≠ 0)

/-- Two results agree in the fields that executing `w` leaves as they were:
`alu_result` for a branch or a jump, the branch fields for all others. -/
def UnwrittenAgree (w : Word) (r r' : ExecutionResult) : Prop :=
  if opcode w = 0x63 ∨ opcode w = 0x6F then
    r.aluResult = r'.aluResult
  else
    r.branchTaken = r'.branchTaken ∧ r.branchTarget = r'.branchTarget

/-! ## the flat machine -/

namespace Core

/-- The same architectural state. -/
structure SameArch (c c' : Core) : Prop where
  registerBank : c.registerBank = c'.registerBank
  mmu : c.mmu = c'.mmu

namespace SameArch

variable {c c' : Core}

theorem pc_eq (h : SameArch c c') : c'.pc = c.pc := by
  rw [pc, pc, h.registerBank]

/-- The same word is fetched, or the same exception thrown. -/
theorem readWord_eq (h : SameArch c c') : c'.mmu.readWord c'.pc = c.mmu.readWord c.pc := by
  rw [h.pc_eq, h.mmu]

theorem advance (h : SameArch c c') : SameArch c.advance c'.advance := by
  refine ⟨?_, h.mmu⟩
  rw [Core.advance, Core.advance, h.pc_eq, h.registerBank]

end SameArch

/-- Executing changes nothing but the result. -/
theorem sameArch_executed (c : Core) (inst : DecodedInstructionVariant) :
    SameArch (c.executed inst).2 c := by
  rw [executed_snd]
  exact ⟨rfl, rfl⟩

/-- Decoding and executing changes nothing architectural. -/
theorem sameArch_decodeExecute (w : Word) (c : Core) :
    SameArch (final ((decodeExecute w).run c)) c := by
  cases hd : decode w with
  | error e =>
      have hrun : (decodeExecute w).run c = .error e c := by
        unfold decodeExecute
        simp only [EStateM.run_bind, run_tries, hd]
      rw [hrun]
      exact ⟨rfl, rfl⟩
  | ok inst =>
      have hsame := sameArch_executed c inst
      rcases he : c.executed inst with ⟨e | e, c'⟩
      · rw [run_decodeExecute_of_none hd he]
        rwa [he] at hsame
      · rw [run_decodeExecute_of_some hd he]
        rwa [he] at hsame

/-- Memory access looks at the architectural state and the result it is handed
alone. -/
theorem sameArch_access (inst : DecodedInstructionVariant) (r : ExecutionResult) :
    Coupled SameArch (access inst r) (access inst r) := by
  cases inst with
  | iType inst =>
      dsimp only [access]
      split
      · exact .bind (.tries fun c c' h => congrArg (·.readWord r.aluResult) h.mmu) fun _ => .pure _
      · exact .pure _
  | sType inst =>
      have hx : ∀ c c', SameArch c c' → c.x (Rv32i.rs2 inst.raw) = c'.x (Rv32i.rs2 inst.raw) := by
        intro c c' h
        rw [x, x, h.registerBank]
      refine .bind (.reads hx) fun data => .bind ?_ fun _ => .pure _
      refine .zoom (Q := Eq) (fun m m' h => h ▸ ⟨rfl, rfl⟩) (fun _ _ h => h.mmu) ?_
      exact fun c c' m m' h hm => ⟨h.registerBank, hm⟩
  | _ => exact .pure _

/-- So does write back. -/
theorem sameArch_retire (inst : DecodedInstructionVariant) (r : ExecutionResult)
    (m : MemoryAccessResult) : Coupled SameArch (retire inst r m) (retire inst r m) := by
  refine coupled_retire inst r m fun rd value => .modify fun c c' h => ⟨?_, h.mmu⟩
  rw [setX, setX, h.registerBank]

section Handed

variable {w : Word} {inst : DecodedInstructionVariant} {bank : RegisterBank} {m : MMU}
  {r r' : ExecutionResult}

/-- A format that writes `alu_result` hands on the old branch fields. -/
theorem handed_eq_iff_of_alu {v : Word} (hw : Executes w)
    (hop : ¬ (opcode w = 0x63 ∨ opcode w = 0x6F)) (hd : decode w = .ok inst)
    (he : ∀ r, executed ⟨bank, m, r⟩ inst = (none, setAlu ⟨bank, m, r⟩ v)) :
    outcome ((decodeExecute w).run ⟨bank, m, r⟩) =
      outcome ((decodeExecute w).run ⟨bank, m, r'⟩) ↔ (Executes w → UnwrittenAgree w r r') := by
  rw [run_decodeExecute_of_none hd (he r), run_decodeExecute_of_none hd (he r'), UnwrittenAgree,
    if_neg hop]
  simp [setAlu, hw]

/-- A format that writes the branch fields hands on the old `alu_result`. -/
theorem handed_eq_iff_of_branch (taken : Bool) (target : Word) (hw : Executes w)
    (hop : opcode w = 0x63 ∨ opcode w = 0x6F) (hd : decode w = .ok inst)
    (he : ∀ r, executed ⟨bank, m, r⟩ inst = (none, setBranch ⟨bank, m, r⟩ taken target)) :
    outcome ((decodeExecute w).run ⟨bank, m, r⟩) =
      outcome ((decodeExecute w).run ⟨bank, m, r'⟩) ↔ (Executes w → UnwrittenAgree w r r') := by
  rw [run_decodeExecute_of_none hd (he r), run_decodeExecute_of_none hd (he r'), UnwrittenAgree,
    if_pos hop]
  simp [setBranch, hw]

/-- A word that is thrown on is thrown on whatever the old result. -/
theorem handed_eq_iff_of_throws {e : Exception} (hw : ¬ Executes w) (hd : decode w = .ok inst)
    (he : ∀ r, ∃ c, executed ⟨bank, m, r⟩ inst = (some e, c)) :
    outcome ((decodeExecute w).run ⟨bank, m, r⟩) =
      outcome ((decodeExecute w).run ⟨bank, m, r'⟩) ↔ (Executes w → UnwrittenAgree w r r') := by
  obtain ⟨c, hc⟩ := he r
  obtain ⟨c', hc'⟩ := he r'
  rw [run_decodeExecute_of_some hd hc, run_decodeExecute_of_some hd hc']
  exact ⟨fun _ h => absurd h hw, fun _ => rfl⟩

end Handed

/-- The results handed on agree exactly when the fields left unwritten do. -/
theorem handed_eq_iff (w : Word) {c c' : Core} (h : SameArch c c') :
    outcome ((decodeExecute w).run c) = outcome ((decodeExecute w).run c') ↔
      (Executes w → UnwrittenAgree w c.result c'.result) := by
  obtain ⟨bank, m, r⟩ := c
  obtain ⟨bank', m', r'⟩ := c'
  obtain ⟨rfl, rfl⟩ := h
  rcases opcode_cases w with hop | hop | hop | hop | hop | hop | hop
  · have hw : Executes w ↔ funct3 w = 0 := by simp [Executes, hop]
    by_cases hf : funct3 w = 0
    · obtain ⟨v, hv⟩ : ∃ v, aluR w bank.x = some v := ⟨_, if_pos hf⟩
      refine handed_eq_iff_of_alu (v := v) (hw.mpr hf) (by simp [hop]) (decode_reg hop) fun r => ?_
      simp only [executed, x, hv]
    · refine handed_eq_iff_of_throws (e := .invalidArgument "Unsupported R-Type funct3")
        (fun h => hf (hw.mp h)) (decode_reg hop) fun r => ⟨⟨bank, m, r⟩, ?_⟩
      simp only [executed, aluR, if_neg hf]
  · exact handed_eq_iff_of_alu (v := aluI w bank.x) (.inr (.inl hop)) (by simp [hop])
      (decode_imm hop) fun r => rfl
  · exact handed_eq_iff_of_alu (v := storeAddress w bank.x) (.inr (.inr (.inl hop)))
      (by simp [hop]) (decode_store hop) fun r => rfl
  · have hw : Executes w ↔ funct3 w = 0 ∨ funct3 w = 1 := by simp [Executes, hop]
    cases ht : takesB w bank.x with
    | some taken =>
        have hf : funct3 w = 0 ∨ funct3 w = 1 := by
          by_contra hno
          rw [(takesB_eq_none_iff w bank.x).mpr hno] at ht
          contradiction
        refine handed_eq_iff_of_branch taken (if taken then getImmediateB ⟨w⟩ else 0)
          (hw.mpr hf) (.inl hop) (decode_branch hop) fun r => ?_
        simp only [executed, x, ht]
    | none =>
        have hf := (takesB_eq_none_iff w bank.x).mp ht
        refine handed_eq_iff_of_throws (e := .invalidArgument "Unsupported B-Type funct3")
          (fun h => hf (hw.mp h)) (decode_branch hop) fun r => ⟨⟨bank, m, r⟩, ?_⟩
        simp only [executed, x, ht]
  · exact handed_eq_iff_of_alu (v := Rv32i.immU w ++ 0#12) (.inr (.inr (.inr (.inr (.inl hop)))))
      (by simp [hop]) (decode_upper hop) fun r => rfl
  · have hw : Executes w ↔ getImmediateJ ⟨w⟩ ≠ 0 := by simp [Executes, hop]
    by_cases hi : getImmediateJ ⟨w⟩ = 0
    · refine handed_eq_iff_of_throws (e := .endOfProgramException "End of program reached")
        (fun h => hw.mp h hi) (decode_jump hop)
        fun r => ⟨setBranch ⟨bank, m, r⟩ true (bank.pc + getImmediateJ ⟨w⟩), ?_⟩
      simp only [executed, if_pos hi, pc]
    · refine handed_eq_iff_of_branch true (bank.pc + getImmediateJ ⟨w⟩) (hw.mpr hi) (.inr hop)
        (decode_jump hop) fun r => ?_
      simp only [executed, if_neg hi, pc]
  · have hnot : ¬ Executes w := by
      rintro (⟨h, -⟩ | h | h | ⟨h, -⟩ | h | ⟨h, -⟩) <;> simp [decode, h] at hop
    unfold decodeExecute
    simp only [EStateM.run_bind, run_tries, hop]
    exact ⟨fun _ h => absurd h hnot, fun _ => rfl⟩

theorem toExecute_of_fetch {c : Core} {w : Word} (h : c.mmu.readWord c.pc = .ok w) :
    toExecute.run c = (decodeExecute w).run c.advance := by
  unfold toExecute fetch
  simp only [EStateM.run_bind, run_tries, h, EStateM.run_modify, EStateM.run_pure]

theorem toExecute_of_fetch_error {c : Core} {e : Exception}
    (h : c.mmu.readWord c.pc = .error e) : toExecute.run c = .error e c := by
  unfold toExecute fetch
  simp only [EStateM.run_bind, run_tries, h]

/-- Up to the execute stage, the same architectural state stays the same. -/
theorem sameArch_toExecute {c c' : Core} (h : SameArch c c') :
    SameArch (final (toExecute.run c)) (final (toExecute.run c')) := by
  cases hread : c.mmu.readWord c.pc with
  | error e =>
      have hread' : c'.mmu.readWord c'.pc = .error e := by rw [h.readWord_eq, hread]
      rw [toExecute_of_fetch_error hread, toExecute_of_fetch_error hread']
      exact h
  | ok w =>
      have hread' : c'.mmu.readWord c'.pc = .ok w := by rw [h.readWord_eq, hread]
      have hsame := sameArch_decodeExecute w c.advance
      have hsame' := sameArch_decodeExecute w c'.advance
      rw [toExecute_of_fetch hread, toExecute_of_fetch hread']
      exact ⟨hsame.registerBank.trans (h.advance.registerBank.trans hsame'.registerBank.symm),
        hsame.mmu.trans (h.advance.mmu.trans hsame'.mmu.symm)⟩

/-- The rest of a cycle is decided by what was handed on. -/
theorem sameArch_cycle {c c' : Core} (h : SameArch c c')
    (hhanded : outcome (toExecute.run c) = outcome (toExecute.run c')) :
    outcome (cycle.run c) = outcome (cycle.run c') ∧
      SameArch (final (cycle.run c)) (final (cycle.run c')) :=
  Coupled.bind_at hhanded (sameArch_toExecute h) fun p =>
    .bind (sameArch_access p.1 p.2) fun m => sameArch_retire p.1 p.2 m

/-- What is handed on is the same exactly when the fields the fetched word
leaves unwritten are. -/
theorem toExecute_eq_iff {c c' : Core} (h : SameArch c c') :
    outcome (toExecute.run c) = outcome (toExecute.run c') ↔
      ∀ w, c.mmu.readWord c.pc = .ok w → Executes w → UnwrittenAgree w c.result c'.result := by
  cases hread : c.mmu.readWord c.pc with
  | error e =>
      have hread' : c'.mmu.readWord c'.pc = .error e := by rw [h.readWord_eq, hread]
      rw [toExecute_of_fetch_error hread, toExecute_of_fetch_error hread']
      simp
  | ok w =>
      have hread' : c'.mmu.readWord c'.pc = .ok w := by rw [h.readWord_eq, hread]
      rw [toExecute_of_fetch hread, toExecute_of_fetch hread', handed_eq_iff w h.advance]
      constructor
      · intro hagree v hv
        obtain rfl := Except.ok.inj hv
        exact hagree
      · exact fun hagree => hagree w rfl

end Core

/-! ## the pipeline -/

/-- The next cycles of two pipelines cannot be told apart: they report the
same, leave the same architectural state, and hand the same instruction and
execution result to the last two stages. -/
structure SameNext (s t : Pipeline) : Prop where
  reported : outcome (Pipeline.runCycle.run s) = outcome (Pipeline.runCycle.run t)
  registerBank : (final (Pipeline.runCycle.run s)).registerBank =
    (final (Pipeline.runCycle.run t)).registerBank
  mmu : (final (Pipeline.runCycle.run s)).mmu = (final (Pipeline.runCycle.run t)).mmu
  handed : outcome (Pipeline.runToExecute.run s) = outcome (Pipeline.runToExecute.run t)

theorem sameNext_iff {s t : Pipeline} (hbank : s.registerBank = t.registerBank)
    (hmmu : s.mmu = t.mmu) :
    SameNext s t ↔ ∀ w, s.mmu.readWord s.registerBank.pc = .ok w → Executes w →
      UnwrittenAgree w s.executeStage.result t.executeStage.result := by
  have hsame : Core.SameArch s.core t.core := ⟨hbank, hmmu⟩
  have hs := (runToExecute_core s _ rfl).1
  have ht := (runToExecute_core t _ rfl).1
  have hiff := Core.toExecute_eq_iff hsame
  rw [← hs, ← ht] at hiff
  constructor
  · exact fun h => hiff.mp h.handed
  · intro h
    have hhanded := hiff.mpr h
    obtain ⟨hout, hfin⟩ := Core.sameArch_cycle hsame (by rw [← hs, ← ht, hhanded])
    rw [← (runCycle_core s _ rfl).1, ← (runCycle_core t _ rfl).1] at hout
    rw [← core_runCycle, ← core_runCycle] at hfin
    exact ⟨hout, hfin.registerBank, hfin.mmu, hhanded⟩

/-- Executing an R, I, S or U instruction leaves `branch_taken` as it was. -/
theorem branchTaken_process {s : Pipeline}
    (h : s.executeStage.decodedInstruction.index ∈ [1, 2, 3, 5]) :
    (final (ExecuteStage.process.run s)).executeStage.result.branchTaken =
      s.executeStage.result.branchTaken := by
  have hcore := (process_core (s := s) rfl).2
  have hresult := congrArg (·.result.branchTaken) hcore
  refine hresult.trans ?_
  cases hinst : s.executeStage.decodedInstruction with
  | rType inst =>
      cases hv : aluR inst.raw s.core.x with
      | some v =>
          have he : s.core.executed (.rType inst) = (none, s.core.setAlu v) := by
            simp only [Core.executed, hv]
          rw [run_perform_of_none he]
          rfl
      | none =>
          have he : s.core.executed (.rType inst) =
              (some (.invalidArgument "Unsupported R-Type funct3"), s.core) := by
            simp only [Core.executed, hv]
          rw [run_perform_of_some he]
          rfl
  | iType inst => rfl
  | sType inst => rfl
  | uType inst => rfl
  | bType inst => rw [hinst] at h; simp [DecodedInstructionVariant.index] at h
  | jType inst => rw [hinst] at h; simp [DecodedInstructionVariant.index] at h
  | invalidType inst => rw [hinst] at h; simp [DecodedInstructionVariant.index] at h

/-- **History**: the next cycles of two pipelines with the same architectural
state cannot be told apart exactly when, on a fetched word that the execute
stage does not throw on, the two stored results agree in the fields the word
leaves unwritten; and `branch_taken` is false after an R, I, S or U instruction
exactly when it was before. -/
theorem runCycle_history (s : Pipeline) :
    (∀ t : Pipeline, s.registerBank = t.registerBank → s.mmu = t.mmu →
      (SameNext s t ↔ ∀ w, s.mmu.readWord s.registerBank.pc = .ok w → Executes w →
        UnwrittenAgree w s.executeStage.result t.executeStage.result)) ∧
    (s.executeStage.decodedInstruction.index ∈ [1, 2, 3, 5] →
      outcome (ExecuteStage.process.run s) = .ok () →
      ((final (ExecuteStage.process.run s)).executeStage.result.branchTaken = false ↔
        s.executeStage.result.branchTaken = false)) :=
  ⟨fun _ hbank hmmu => sameNext_iff hbank hmmu, fun h _ => by rw [branchTaken_process h]⟩

/-- A fresh CPU that has run `addi x0, x0, imm` and then loaded `jal x1, 8`. -/
def jumpAfter (imm : Byte) : Pipeline :=
  let first := final (CPU.runCycle.run (CPU.boot 8 ⟨0, 0, 0⟩ [0x13, 0x00, imm, 0x00]))
  (first.loadProgram (.contents [0xEF, 0x00, 0x80, 0x00])).2.pipeline

theorem pageTable_jumpAfter (imm : Byte) :
    (jumpAfter imm).mmu.pageTable = (CPU.new 8 ⟨0, 0, 0⟩).pipeline.mmu.pageTable := by
  have hboot := confined_loadProgram (.contents [0x13, 0x00, imm, 0x00]) (CPU.new 8 ⟨0, 0, 0⟩)
  have hcycle := keeps_runCycle (CPU.boot 8 ⟨0, 0, 0⟩ [0x13, 0x00, imm, 0x00]).pipeline
  have hload := confined_loadProgram (.contents [0xEF, 0x00, 0x80, 0x00])
    (final (CPU.runCycle.run (CPU.boot 8 ⟨0, 0, 0⟩ [0x13, 0x00, imm, 0x00])))
  have hzoom : (final (CPU.runCycle.run
      (CPU.boot 8 ⟨0, 0, 0⟩ [0x13, 0x00, imm, 0x00]))).pipeline =
      final (Pipeline.runCycle.run (CPU.boot 8 ⟨0, 0, 0⟩ [0x13, 0x00, imm, 0x00]).pipeline) := by
    rw [CPU.runCycle, final_zoom]
  rw [hzoom] at hload
  exact hload.pageTable.trans (hcycle.pageTable.trans hboot.pageTable)

/-- With 5 or 7 added earlier the architectural state is the same, yet the
jump writes 5 or 7 to `x1`. -/
theorem runCycle_leaks :
    (jumpAfter 0x50).registerBank = (jumpAfter 0x70).registerBank ∧
    (jumpAfter 0x50).mmu = (jumpAfter 0x70).mmu ∧
    (final (Pipeline.runCycle.run (jumpAfter 0x50))).registerBank.x 1 = 5 ∧
    (final (Pipeline.runCycle.run (jumpAfter 0x70))).registerBank.x 1 = 7 ∧
    ¬ ∀ s t : Pipeline, s.registerBank = t.registerBank → s.mmu = t.mmu → SameNext s t := by
  have hbank : (jumpAfter 0x50).registerBank = (jumpAfter 0x70).registerBank := by
    decide +kernel
  have hmmu : (jumpAfter 0x50).mmu = (jumpAfter 0x70).mmu := by
    apply MMU.ext
    · decide +kernel
    · rw [pageTable_jumpAfter, pageTable_jumpAfter]
    · decide +kernel
  have h5 : (final (Pipeline.runCycle.run (jumpAfter 0x50))).registerBank.x 1 = 5 := by
    decide +kernel
  have h7 : (final (Pipeline.runCycle.run (jumpAfter 0x70))).registerBank.x 1 = 7 := by
    decide +kernel
  refine ⟨hbank, hmmu, h5, h7, fun h => ?_⟩
  have hsame := (h _ _ hbank hmmu).registerBank
  rw [hsame, h7] at h5
  contradiction

end VirtuV
