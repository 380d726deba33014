import VirtuV.Cycle
import VirtuV.WordAccess

/-!
# VirtuV.Store

The cycle of a store instruction: it is one word write of the MMU, and fails
where that fails.

The write is not undone when one of its bytes faults, so a store that throws
leaves the bytes before that one behind.
-/

namespace VirtuV

open Stateful
open Bits
open Rv32i (opcode rs2)

namespace Pipeline

/-- **The cycle of a store**: it reports what the word write reports and leaves
the MMU where that leaves it, and of the register bank only `pc` moves. -/
theorem runCycle_of_store {s : Pipeline} {w : Word}
    (hfetch : s.mmu.readWord s.registerBank.pc = .ok w) (hop : opcode w = 0x23) :
    outcome (runCycle.run s) = outcome ((MMU.writeWord (storeAddress w s.registerBank.x)
      (s.registerBank.x (rs2 w))).run s.mmu) ∧
    (final (runCycle.run s)).mmu = final ((MMU.writeWord (storeAddress w s.registerBank.x)
      (s.registerBank.x (rs2 w))).run s.mmu) ∧
    (final (runCycle.run s)).registerBank = s.registerBank.setPc (s.registerBank.pc + 4) := by
  have hfinish := Core.run_finish_store s.core.advance hop
  have hout := outcome_runCycle_of_fetch hfetch
  have hcore := core_runCycle_of_fetch hfetch
  rw [hfinish, outcome_zoom] at hout
  rw [hfinish, final_zoom] at hcore
  exact ⟨hout, congrArg Core.mmu hcore, congrArg Core.registerBank hcore⟩

end Pipeline

/-! ## a store that succeeds -/

/-- **A store**: where each byte of the word at its address can be written, the
cycle returns, the bytes of the source register are there, no other byte, no
register and neither page table nor mode has changed, `pc` is past the
instruction, and the word is read back where it can be read.  That holds of
any `funct3`, 2 included. -/
theorem runCycle_store (s : Pipeline) (w : Word)
    (hfetch : s.mmu.readWord s.registerBank.pc = .ok w) (hop : opcode w = 0x23)
    (hwritable : s.mmu.WordWritable (storeAddress w s.registerBank.x)) :
    ∃ s', Pipeline.runCycle.run s = .ok () s' ∧
      s.mmu.BytesStored s'.mmu (storeAddress w s.registerBank.x) (s.registerBank.x (rs2 w)) 4 ∧
      s'.registerBank.registers = s.registerBank.registers ∧
      s'.registerBank.pc = s.registerBank.pc + 4 ∧
      (s.mmu.WordReadable (storeAddress w s.registerBank.x) →
        s'.mmu.readWord (storeAddress w s.registerBank.x) = .ok (s.registerBank.x (rs2 w))) := by
  obtain ⟨mmu', hwrite⟩ := (MMU.writeWord_ok_iff s.mmu _ (s.registerBank.x (rs2 w))).mpr hwritable
  have hstored := MMU.bytesStored_of_writeWord hwrite
  obtain ⟨hout, hmmu, hbank⟩ := Pipeline.runCycle_of_store hfetch hop
  rw [hwrite, outcome_ok] at hout
  rw [hwrite, final_ok] at hmmu
  rw [← hmmu] at hstored
  refine ⟨_, eq_ok_of_outcome hout, hstored, ?_, ?_, hstored.readWord⟩
  · rw [hbank]; rfl
  · rw [hbank]; rfl

/-- Twelve bytes of memory with `addi x1, x0, 5` and `sw x1, 8(x0)`, the first
of them executed. -/
def storeFive : Pipeline :=
  final (Pipeline.runCycle.run (CPU.boot 12 ⟨0, 0, 0⟩
    [0x93, 0x00, 0x50, 0x00, 0x23, 0x24, 0x10, 0x00]).pipeline)

/-- The store puts a 5 where a 0 was. -/
theorem runCycle_store_five : storeFive.mmu.readWord 8 = .ok 0 ∧
    ∃ s', Pipeline.runCycle.run storeFive = .ok () s' ∧ s'.registerBank.pc = 8 ∧
      s'.mmu.readWord 8 = .ok 5 := by
  have hpc : storeFive.registerBank.pc = 4 := by decide +kernel
  have hx : storeFive.registerBank.x 1 = 5 := by decide +kernel
  have haddress : storeAddress 0x00102423 storeFive.registerBank.x = 8 := by decide +kernel
  have hwritable : storeFive.mmu.WordWritable 8 := by
    rw [MMU.wordWritable_iff]
    decide +kernel
  have hreadable : storeFive.mmu.WordReadable 8 := by
    rw [MMU.wordReadable_iff]
    decide +kernel
  obtain ⟨s', hrun, -, -, hpc', hread⟩ := runCycle_store storeFive 0x00102423 (by decide +kernel)
    (by decide) (by rw [haddress]; exact hwritable)
  rw [haddress] at hread
  refine ⟨by decide +kernel, s', hrun, ?_, ?_⟩
  · rw [hpc', hpc]
    rfl
  · rw [hread hreadable]
    exact congrArg _ hx

/-! ## a store that faults -/

/-- A word write has stopped at its first byte that translates to no address in
range, with the bytes before it stored; memory is then as it was exactly if it
already held these. -/
def MMU.Torn (mmu mmu' : MMU) (va w : Word) : Prop :=
  ∃ k < 4,
    (∀ i < k, ∃ pa, mmu.translateAddress (va + BitVec.ofNat 32 i) true = .ok pa ∧
      pa.toNat < mmu.physicalMemory.size) ∧
    (¬ ∃ pa, mmu.translateAddress (va + BitVec.ofNat 32 k) true = .ok pa ∧
      pa.toNat < mmu.physicalMemory.size) ∧
    mmu.BytesStored mmu' va w k ∧
    (mmu'.physicalMemory = mmu.physicalMemory ↔
      ∀ i < k, ∃ pa, mmu.translateAddress (va + BitVec.ofNat 32 i) true = .ok pa ∧
        mmu.physicalMemory.memory[pa.toNat]? = some (leByte w i))

theorem MMU.torn_of_writeWord {mmu mmu' : MMU} {va w : Word} {e : Exception}
    (h : (writeWord va w).run mmu = .error e mmu') : mmu.Torn mmu' va w := by
  rcases run_writeWord_cases mmu va w with ⟨-, hrun⟩ | ⟨k, hk, hbelow, hstop, e', -, hrun⟩
  · rw [hrun] at h
    contradiction
  · rw [hrun] at h
    obtain ⟨-, rfl⟩ := EStateM.Result.error.inj h
    refine ⟨k, hk, fun i hi => (reaches_iff mmu true _).mp (hbelow i hi),
      fun hex => hstop ((reaches_iff mmu true _).mpr hex),
      bytesStored_storeBytes w (Nat.le_of_lt hk) hbelow, ?_⟩
    rw [storeBytes_memory_eq_iff w (Nat.le_of_lt hk) hbelow]
    constructor
    · exact fun hsame i hi => ⟨_, translateAddress_of_grants (hbelow i hi).1, hsame i hi⟩
    · intro hsame i hi
      obtain ⟨pa, hpa, hbyte⟩ := hsame i hi
      obtain ⟨-, rfl⟩ := (translateAddress_eq_ok_iff mmu true _ pa).mp hpa
      exact hbyte

/-- A store that throws leaves memory as its word write does. -/
theorem Pipeline.torn_runCycle {s : Pipeline} {w : Word} {e : Exception}
    (hfetch : s.mmu.readWord s.registerBank.pc = .ok w) (hop : opcode w = 0x23)
    (he : outcome (runCycle.run s) = .error e) :
    s.mmu.Torn (final (runCycle.run s)).mmu (storeAddress w s.registerBank.x)
      (s.registerBank.x (rs2 w)) := by
  obtain ⟨hout, hmmu, -⟩ := runCycle_of_store hfetch hop
  rw [hout] at he
  rw [hmmu]
  exact MMU.torn_of_writeWord (eq_error_of_outcome he)

/-- **Torn stores**: a word write that throws has stored the bytes before the
first one it could not write, and no others; a store instruction that faults in
a cycle leaves memory likewise. -/
theorem store_torn (mmu : MMU) (s : Pipeline) :
    (∀ va w e mmu', (MMU.writeWord va w).run mmu = .error e mmu' → mmu.Torn mmu' va w) ∧
    (∀ w e, s.mmu.readWord s.registerBank.pc = .ok w → opcode w = 0x23 →
      outcome (Pipeline.runCycle.run s) = .error e →
      s.mmu.Torn (final (Pipeline.runCycle.run s)).mmu (storeAddress w s.registerBank.x)
        (s.registerBank.x (rs2 w))) := by
  exact ⟨fun va w e mmu' h => MMU.torn_of_writeWord h,
    fun w e hfetch hop he => Pipeline.torn_runCycle hfetch hop he⟩

/-- `sw x0, 1(x0)` at address 0 of a fresh CPU of four bytes: the last of the
four bytes it stores is out of range. -/
def storeOffEnd : Pipeline := (CPU.boot 4 ⟨0, 0, 0⟩ [0xA3, 0x20, 0x00, 0x00]).pipeline

/-- It throws, and has overwritten a byte of itself. -/
theorem store_torn_offEnd :
    outcome ((MMU.writeWord 1 0).run storeOffEnd.mmu) =
      .error (.outOfRange "PhysicalMemory::write - Address out of range") ∧
    outcome (Pipeline.runCycle.run storeOffEnd) =
      .error (.outOfRange "PhysicalMemory::write - Address out of range") ∧
    storeOffEnd.mmu.physicalMemory = ⟨[0xA3, 0x20, 0x00, 0x00]⟩ ∧
    (final (Pipeline.runCycle.run storeOffEnd)).mmu.physicalMemory = ⟨[0xA3, 0x00, 0x00, 0x00]⟩ ∧
    ¬ (∀ (mmu mmu' : MMU) va w e, (MMU.writeWord va w).run mmu = .error e mmu' →
      mmu'.physicalMemory = mmu.physicalMemory) ∧
    ¬ (∀ (s : Pipeline) w e, s.mmu.readWord s.registerBank.pc = .ok w → opcode w = 0x23 →
      outcome (Pipeline.runCycle.run s) = .error e →
      (final (Pipeline.runCycle.run s)).mmu.physicalMemory = s.mmu.physicalMemory) := by
  have hwrite : outcome ((MMU.writeWord 1 0).run storeOffEnd.mmu) =
      .error (.outOfRange "PhysicalMemory::write - Address out of range") ∧
      (final ((MMU.writeWord 1 0).run storeOffEnd.mmu)).physicalMemory ≠
        storeOffEnd.mmu.physicalMemory := by decide +kernel
  have hcycle : outcome (Pipeline.runCycle.run storeOffEnd) =
      .error (.outOfRange "PhysicalMemory::write - Address out of range") := by decide +kernel
  have hbefore : storeOffEnd.mmu.physicalMemory = ⟨[0xA3, 0x20, 0x00, 0x00]⟩ := by decide +kernel
  have hafter : (final (Pipeline.runCycle.run storeOffEnd)).mmu.physicalMemory =
      ⟨[0xA3, 0x00, 0x00, 0x00]⟩ := by decide +kernel
  refine ⟨hwrite.1, hcycle, hbefore, hafter, fun h => ?_, fun h => ?_⟩
  · exact hwrite.2 (h _ _ _ _ _ (eq_error_of_outcome hwrite.1))
  · have hsame := h storeOffEnd 0x000020A3 _ (by decide +kernel) (by decide) hcycle
    rw [hbefore, hafter] at hsame
    revert hsame
    decide

end VirtuV
