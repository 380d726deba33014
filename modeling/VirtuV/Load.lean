import VirtuV.Cycle
import VirtuV.WordAccess

/-!
# VirtuV.Load

The path of a load through the execute, memory and write back stages.

Memory and write back know a load by its opcode, but execute looks at `funct3`
alone, and `funct3` 2 is that of `slti`.  So the address a word load is sent
to is not base plus offset but the outcome of a comparison, 0 or 1.
-/

namespace VirtuV

open Stateful
open Rv32i (opcode rd funct3 rs1)

/-! ## the path -/

namespace Pipeline

/-- The last three sections of `run_cycle`, on a decoded instruction. -/
def runDecoded (decodedInst : DecodedInstructionVariant) : PipelineM Unit := do
  let execResult ← runExecute decodedInst
  let memResult ← runMemoryAccess decodedInst execResult
  runWriteBack decodedInst execResult memResult

/-- They are what `run_cycle` does with what it has decoded. -/
theorem runCycle_eq_runDecoded : runCycle = (do
    let instruction ← runFetch
    let decodedInst ← runDecode instruction
    runDecoded decodedInst) := by
  unfold runCycle runToExecute runDecoded
  simp only [bind_assoc, pure_bind]

end Pipeline

namespace DecodedInstruction

variable (inst : DecodedInstruction .iType)

/-- Where a load should read: base plus offset. -/
def effectiveAddress (x : Rv32i.Registers) : Word := x inst.rs1 + getImmediateI inst

/-- Where it does read: 1 if the base is less than the offset, 0 if not. -/
def comparison (x : Rv32i.Registers) : Word :=
  if (x inst.rs1).toInt < (getImmediateI inst).toInt then 1 else 0

end DecodedInstruction

namespace Core

def runDecoded (inst : DecodedInstructionVariant) : CoreM Unit := do
  let r ← execute inst
  let m ← access inst r
  retire inst r m

/-- A word load, in the flat machine. -/
theorem run_runDecoded_load {inst : DecodedInstruction .iType} (hop : inst.opcode = 0x03)
    (hf : inst.funct3 = 2) (c : Core) :
    (runDecoded (.iType inst)).run c =
      match c.mmu.readWord (inst.comparison c.x) with
      | .ok word => .ok () ((c.setAlu (inst.comparison c.x)).setX inst.rd word)
      | .error e => .error e (c.setAlu (inst.comparison c.x)) := by
  have hopc : opcode inst.raw = 0x03 := hop
  have halu : aluI inst.raw c.x = inst.comparison c.x := by
    have hfun : funct3 inst.raw = 2 := hf
    rw [DecodedInstruction.comparison, getImmediateI_eq]
    simp only [aluI, hfun]
    rfl
  have hexec : (execute (.iType inst)).run c = .ok (c.setAlu (aluI inst.raw c.x)).result
      (c.setAlu (aluI inst.raw c.x)) := by
    rw [execute, run_bind_ok (run_perform_of_none rfl)]
    rfl
  rw [runDecoded, run_bind_ok hexec, halu]
  have hresult : (c.setAlu (inst.comparison c.x)).result.aluResult = inst.comparison c.x := rfl
  have hmmu : (c.setAlu (inst.comparison c.x)).mmu = c.mmu := rfl
  have hrd : rd inst.raw = inst.rd := rfl
  simp only [access, retire, if_pos hopc, EStateM.run_bind, run_tries, hresult, hmmu, hrd]
  cases c.mmu.readWord (inst.comparison c.x) with
  | ok word => rfl
  | error e => rfl

end Core

theorem runDecoded_core (inst : DecodedInstructionVariant) :
    Refines (Pipeline.runDecoded inst) (Core.runDecoded inst) :=
  Coupled.bind (runExecute_core inst) fun r =>
    Coupled.bind (runMemoryAccess_core inst r) fun m => runWriteBack_core inst r m

/-! ## what it does, and what a load should do -/

namespace Pipeline

variable {s : Pipeline} {inst : DecodedInstruction .iType}

/-- The path reads the word at the comparison, and puts it in the destination. -/
theorem runDecoded_load_ok (hop : inst.opcode = 0x03) (hf : inst.funct3 = 2) {word : Word}
    (h : s.mmu.readWord (inst.comparison s.registerBank.x) = .ok word) :
    ∃ s', (runDecoded (.iType inst)).run s = .ok () s' ∧
      (∀ r, s'.registerBank.x r =
        if r = inst.rd ∧ inst.rd ≠ 0 then word else s.registerBank.x r) ∧
      s'.mmu = s.mmu := by
  have hcore := Core.run_runDecoded_load hop hf s.core
  have hread : s.core.mmu.readWord (inst.comparison s.core.x) = .ok word := h
  rw [hread] at hcore
  obtain ⟨s', hrun, hs'⟩ := (runDecoded_core (.iType inst)).exists_ok rfl hcore
  have hbank := congrArg Core.registerBank hs'
  have hmmu := congrArg Core.mmu hs'
  refine ⟨s', hrun, fun r => ?_, hmmu⟩
  rw [show s'.registerBank = s.registerBank.setX inst.rd word from hbank, RegisterBank.setX_x]

/-- Where it cannot, it throws, and no register has changed. -/
theorem runDecoded_load_error (hop : inst.opcode = 0x03) (hf : inst.funct3 = 2) {e : Exception}
    (h : s.mmu.readWord (inst.comparison s.registerBank.x) = .error e) :
    ∃ s', (runDecoded (.iType inst)).run s = .error e s' ∧ s'.registerBank = s.registerBank := by
  have hcore := Core.run_runDecoded_load hop hf s.core
  have hread : s.core.mmu.readWord (inst.comparison s.core.x) = .error e := h
  rw [hread] at hcore
  obtain ⟨s', hrun, hs'⟩ := (runDecoded_core (.iType inst)).exists_error rfl hcore
  exact ⟨s', hrun, congrArg Core.registerBank hs'⟩

/-- A load done right: the word at the effective address goes to the
destination and nothing else changes, or, where that word cannot be read, the
path throws and no register changes. -/
def LoadsWord (s : Pipeline) (inst : DecodedInstruction .iType) : Prop :=
  (∀ word, s.mmu.readWord (inst.effectiveAddress s.registerBank.x) = .ok word →
    ∃ s', (runDecoded (.iType inst)).run s = .ok () s' ∧
      (∀ r, s'.registerBank.x r =
        if r = inst.rd ∧ inst.rd ≠ 0 then word else s.registerBank.x r) ∧
      s'.mmu.physicalMemory = s.mmu.physicalMemory) ∧
  (¬ s.mmu.WordReadable (inst.effectiveAddress s.registerBank.x) →
    ∃ e s', (runDecoded (.iType inst)).run s = .error e s' ∧
      s'.registerBank.registers = s.registerBank.registers)

/-- Reading at the comparison comes to the same as reading at the effective
address: both words can be read or neither can, and they are the same unless
the destination is `x0`. -/
def ComparisonHarmless (s : Pipeline) (inst : DecodedInstruction .iType) : Prop :=
  (s.mmu.WordReadable (inst.effectiveAddress s.registerBank.x) ↔
    s.mmu.WordReadable (inst.comparison s.registerBank.x)) ∧
  (s.mmu.WordReadable (inst.effectiveAddress s.registerBank.x) → inst.rd = 0 ∨
    s.mmu.readWord (inst.comparison s.registerBank.x) =
      s.mmu.readWord (inst.effectiveAddress s.registerBank.x))

/-! ### the four cases -/

/-- Where both words can be read, the one at the comparison goes to the
destination. -/
theorem loadsWord_iff_of_ok (hop : inst.opcode = 0x03) (hf : inst.funct3 = 2) {w w' : Word}
    (hw : s.mmu.readWord (inst.effectiveAddress s.registerBank.x) = .ok w)
    (hw' : s.mmu.readWord (inst.comparison s.registerBank.x) = .ok w')
    (hreads : s.mmu.WordReadable (inst.effectiveAddress s.registerBank.x)) :
    s.LoadsWord inst ↔ inst.rd = 0 ∨ w' = w := by
  obtain ⟨s', hrun, hx, hmmu⟩ := runDecoded_load_ok hop hf hw'
  constructor
  · rintro ⟨hload, -⟩
    obtain ⟨s'', hrun', hx', -⟩ := hload w hw
    rw [hrun] at hrun'
    obtain ⟨-, rfl⟩ := EStateM.Result.ok.inj hrun'
    by_cases hrd : inst.rd = 0
    · exact .inl hrd
    · have hval := hx inst.rd
      rw [hx', if_pos ⟨rfl, hrd⟩, if_pos ⟨rfl, hrd⟩] at hval
      exact .inr hval.symm
  · intro hsame
    refine ⟨fun word hword => ⟨s', hrun, fun r => ?_, congrArg MMU.physicalMemory hmmu⟩,
      fun hno => absurd hreads hno⟩
    rw [hw] at hword
    obtain rfl := Except.ok.inj hword
    rw [hx]
    rcases hsame with hrd | rfl
    · rw [if_neg fun h => h.2 hrd, if_neg fun h => h.2 hrd]
    · rfl

/-- Where only the effective address can be read, the path throws. -/
theorem not_loadsWord_of_ok (hop : inst.opcode = 0x03) (hf : inst.funct3 = 2) {w : Word}
    {e : Exception} (hw : s.mmu.readWord (inst.effectiveAddress s.registerBank.x) = .ok w)
    (he : s.mmu.readWord (inst.comparison s.registerBank.x) = .error e) :
    ¬ s.LoadsWord inst := by
  rintro ⟨hload, -⟩
  obtain ⟨s', hrun, -⟩ := runDecoded_load_error hop hf he
  obtain ⟨s'', hrun', -⟩ := hload w hw
  rw [hrun] at hrun'
  contradiction

/-- Where only the comparison can be read, the path returns. -/
theorem not_loadsWord_of_unreadable (hop : inst.opcode = 0x03) (hf : inst.funct3 = 2) {w' : Word}
    (hfails : ¬ s.mmu.WordReadable (inst.effectiveAddress s.registerBank.x))
    (hw' : s.mmu.readWord (inst.comparison s.registerBank.x) = .ok w') :
    ¬ s.LoadsWord inst := by
  rintro ⟨-, hthrow⟩
  obtain ⟨s', hrun, -⟩ := runDecoded_load_ok hop hf hw'
  obtain ⟨e, s'', hrun', -⟩ := hthrow hfails
  rw [hrun] at hrun'
  contradiction

/-- Where neither can be read, the path throws as it should. -/
theorem loadsWord_of_error (hop : inst.opcode = 0x03) (hf : inst.funct3 = 2) {e e' : Exception}
    (he : s.mmu.readWord (inst.effectiveAddress s.registerBank.x) = .error e)
    (he' : s.mmu.readWord (inst.comparison s.registerBank.x) = .error e') :
    s.LoadsWord inst := by
  obtain ⟨s', hrun, hbank⟩ := runDecoded_load_error hop hf he'
  constructor
  · intro word hword
    rw [he] at hword
    contradiction
  · exact fun _ => ⟨e', s', hrun, congrArg RegisterBank.registers hbank⟩

end Pipeline

/-- **Loads**: the path of a word load does it right exactly when reading at
the comparison comes to the same as reading at the effective address. -/
theorem load_exact (s : Pipeline) (inst : DecodedInstruction .iType) (hop : inst.opcode = 0x03)
    (hf : inst.funct3 = 2) : s.LoadsWord inst ↔ s.ComparisonHarmless inst := by
  unfold Pipeline.ComparisonHarmless
  rcases s.mmu.readWord_cases_readable (inst.effectiveAddress s.registerBank.x) with
    ⟨w, hw, hreads⟩ | ⟨e, he, hfails⟩ <;>
  rcases s.mmu.readWord_cases_readable (inst.comparison s.registerBank.x) with
    ⟨w', hw', hreads'⟩ | ⟨e', he', hfails'⟩
  · rw [Pipeline.loadsWord_iff_of_ok hop hf hw hw' hreads, hw, hw', Except.ok.injEq]
    constructor
    · exact fun hsame => ⟨⟨fun _ => hreads', fun _ => hreads⟩, fun _ => hsame⟩
    · exact fun h => h.2 hreads
  · constructor
    · exact fun h => absurd h (Pipeline.not_loadsWord_of_ok hop hf hw he')
    · exact fun h => absurd (h.1.mp hreads) hfails'
  · constructor
    · exact fun h => absurd h (Pipeline.not_loadsWord_of_unreadable hop hf hfails hw')
    · exact fun h => absurd (h.1.mpr hreads') hfails
  · constructor
    · exact fun _ => ⟨⟨fun h => absurd h hfails, fun h => absurd h hfails'⟩,
        fun h => absurd h hfails⟩
    · exact fun _ => Pipeline.loadsWord_of_error hop hf he he'

/-- `lw x1, 1(x0)` on eight bytes: the comparison is 1 too. -/
theorem load_exact_one :
    (Pipeline.new .new ⟨⟨[0, 7, 0, 0, 0, 0, 0, 0]⟩, PageTable.new.addEntry 0 ⟨0x1F⟩, .machine⟩
      ⟨0, 0, 0⟩).LoadsWord ⟨0x00102083⟩ :=
  (load_exact _ ⟨0x00102083⟩ (by decide) (by decide)).mpr
    ⟨Iff.of_eq (congrArg _ (by decide)), fun _ => .inr (by decide +kernel)⟩

/-- A pipeline whose memory holds 1, then 2, both words little-endian. -/
def oneTwo : Pipeline :=
  .new .new ⟨⟨[1, 0, 0, 0, 2, 0, 0, 0]⟩, PageTable.new.addEntry 0 ⟨0x1F⟩, .machine⟩ ⟨0, 0, 0⟩

/-- `lw x1, 4(x0)` there reads the word at 1 instead of the one at 4. -/
theorem load_comparison :
    oneTwo.mmu.readWord 4 = .ok 2 ∧
    outcome ((Pipeline.runDecoded (.iType ⟨0x00402083⟩)).run oneTwo) = .ok () ∧
    (final ((Pipeline.runDecoded (.iType ⟨0x00402083⟩)).run oneTwo)).registerBank.x 1 =
      0x02000000 ∧
    ¬ ∀ (s : Pipeline) (inst : DecodedInstruction .iType), inst.opcode = 0x03 →
      inst.funct3 = 2 → s.LoadsWord inst := by
  have hread : oneTwo.mmu.readWord 4 = .ok 2 := by decide +kernel
  have hval : (final ((Pipeline.runDecoded (.iType ⟨0x00402083⟩)).run oneTwo)).registerBank.x 1 =
      0x02000000 := by decide +kernel
  refine ⟨hread, by decide +kernel, hval, fun h => ?_⟩
  have hea : DecodedInstruction.effectiveAddress ⟨0x00402083⟩ oneTwo.registerBank.x = 4 := by
    decide +kernel
  obtain ⟨hload, -⟩ := h oneTwo ⟨0x00402083⟩ (by decide) (by decide)
  obtain ⟨s', hrun, hx, -⟩ := hload 2 (by rw [hea]; exact hread)
  have hx1 := hx 1
  rw [hrun, final_ok, hx1] at hval
  revert hval
  decide

end VirtuV
