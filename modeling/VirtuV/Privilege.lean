import VirtuV.Cycle

/-!
# VirtuV.Privilege

What a change of privilege leaves as it was: everything user mode can do.

The mode is looked at in one place, where USER asks an entry for one bit more
than the others.  So a translation granted in user mode is granted in every
mode, and goes to the same address; an access that succeeds does the same, and
nothing else in a cycle looks at the mode.
-/

namespace VirtuV

open Stateful

/-- What user mode is permitted, every mode is permitted. -/
theorem PageTableEntry.permits_of_user {bit : Word} {e : PageTableEntry}
    (h : permits bit e .user = true) (mode : PrivilegeMode) : permits bit e mode = true := by
  unfold permits at h ⊢
  split_ifs at h with hvalid hbit huser
  rw [if_neg hvalid, if_neg hbit, if_neg]
  -- the last test fails on every mode but USER, and there it is `huser`
  cases mode with
  | user => exact huser
  | supervisor => exact Bool.false_ne_true
  | machine => exact Bool.false_ne_true

/-! ## accesses -/

namespace MMU

/-- `m'` is `m`, in user mode, switched to `mode`. -/
structure Raised (mode : PrivilegeMode) (m m' : MMU) : Prop where
  user : m.privilegeMode = .user
  eq : m' = m.setPrivilegeMode mode

variable {mode : PrivilegeMode} {m m' : MMU}

/-- A translation that succeeds in user mode succeeds, and alike. -/
theorem Raised.translateAddress (h : Raised mode m m') {isWrite : Bool} {va pa : Word}
    (hpa : m.translateAddress va isWrite = .ok pa) : m'.translateAddress va isWrite = .ok pa := by
  obtain ⟨hgrants, hphys⟩ := (translateAddress_eq_ok_iff _ _ _ _).mp hpa
  obtain ⟨e, hentry, hperm, he⟩ := (grants_iff _ _ _).mp hgrants
  rw [h.user] at hperm
  rw [h.eq, translateAddress_eq_ok_iff]
  exact ⟨(grants_iff _ _ _).mpr ⟨e, hentry, e.permits_of_user hperm mode, he⟩, hphys⟩

theorem Raised.read (h : Raised mode m m') {va : Word} {b : Byte} (hb : m.read va = .ok b) :
    m'.read va = .ok b := by
  unfold MMU.read at hb ⊢
  cases hpa : m.translateAddress va false with
  | ok pa =>
      rw [hpa] at hb
      rw [h.translateAddress hpa, h.eq]
      exact hb
  | error e =>
      rw [hpa] at hb
      contradiction

theorem Raised.readWord (h : Raised mode m m') {va w : Word} (hw : m.readWord va = .ok w) :
    m'.readWord va = .ok w :=
  readWord_of_bytes fun k hk => h.read (read_of_readWord hw k hk)

theorem simulatedBy_write (va : Word) (b : Byte) :
    SimulatedBy (Raised mode) (write va b) (write va b) := by
  unfold write
  refine .bind (.tries fun m m' h pa => h.translateAddress) fun pa => ?_
  refine .bind (.tries fun m m' h memory hm => ?_) fun memory =>
    (Coupled.modify fun m m' h => ?_).simulatedBy
  · rw [h.eq]
    exact hm
  · obtain rfl := h.eq
    exact ⟨h.user, rfl⟩

theorem simulatedBy_writeWord (va w : Word) :
    SimulatedBy (Raised mode) (writeWord va w) (writeWord va w) :=
  .bind (simulatedBy_write _ _) fun _ => .bind (simulatedBy_write _ _) fun _ =>
    .bind (simulatedBy_write _ _) fun _ => simulatedBy_write _ _

end MMU

/-! ## a cycle -/

namespace Core

/-- `c'` is `c`, in user mode, switched to `mode`. -/
structure Raised (mode : PrivilegeMode) (c c' : Core) : Prop where
  mmu : c.mmu.Raised mode c'.mmu
  registerBank : c'.registerBank = c.registerBank
  result : c'.result = c.result

variable {mode : PrivilegeMode}

theorem Raised.x {c c' : Core} (h : Raised mode c c') : c'.x = c.x :=
  congrArg RegisterBank.x h.registerBank

theorem Raised.pc {c c' : Core} (h : Raised mode c c') : c'.pc = c.pc :=
  congrArg RegisterBank.pc h.registerBank

/-- Execute does not look at the MMU, and leaves it. -/
theorem executed_mmu (c : Core) (mmu : MMU) (inst : DecodedInstructionVariant) :
    { c with mmu }.executed inst = ((c.executed inst).1, { (c.executed inst).2 with mmu }) := by
  cases inst with
  | rType inst =>
      have hx : { c with mmu }.x = c.x := rfl
      simp only [executed, hx]
      cases aluR inst.raw c.x <;> rfl
  | bType inst =>
      have hx : { c with mmu }.x = c.x := rfl
      simp only [executed, hx]
      cases takesB inst.raw c.x <;> rfl
  | _ => rfl

theorem coupled_perform (inst : DecodedInstructionVariant) :
    Coupled (Raised mode) (perform inst) (perform inst) := by
  intro c c' h
  have hc' : c' = { c with mmu := c'.mmu } := by rw [← h.registerBank, ← h.result]
  have hmmu := congrArg Core.mmu (executed_snd c inst)
  have hexec' := executed_mmu c c'.mmu inst
  rw [← hc'] at hexec'
  cases hexec : c.executed inst with
  | mk thrown d =>
      rw [hexec] at hmmu hexec'
      have hd : Raised mode d { d with mmu := c'.mmu } := ⟨hmmu ▸ h.mmu, rfl, rfl⟩
      cases thrown with
      | none =>
          rw [run_perform_of_none hexec, run_perform_of_none hexec']
          exact ⟨rfl, hd⟩
      | some e =>
          rw [run_perform_of_some hexec, run_perform_of_some hexec']
          exact ⟨rfl, hd⟩

/-- A word read in user mode is read alike. -/
theorem simulatedBy_readWord {p : Core → Word} (hp : ∀ c c', Raised mode c c' → p c' = p c) :
    SimulatedBy (Raised mode) (tries fun c => c.mmu.readWord (p c))
      (tries fun c => c.mmu.readWord (p c)) := by
  refine .tries fun c c' h w hw => ?_
  rw [hp c c' h]
  exact h.mmu.readWord hw

theorem simulatedBy_toExecute : SimulatedBy (Raised mode) toExecute toExecute := by
  unfold toExecute fetch decodeExecute execute
  refine .bind (.bind (simulatedBy_readWord fun _ _ h => h.pc) fun w => .bind ?_ fun _ =>
    (Coupled.pure w).simulatedBy) fun w => ?_
  · refine (Coupled.modify fun c c' h => ⟨h.mmu, ?_, h.result⟩).simulatedBy
    rw [advance, advance, h.registerBank, h.pc]
  · apply Coupled.simulatedBy
    refine .bind (.tries fun _ _ _ => rfl) fun inst => .bind ?_ fun _ => .pure _
    exact .bind (coupled_perform inst) fun _ => .reads fun _ _ h => h.result.symm

theorem simulatedBy_access (inst : DecodedInstructionVariant) (r : ExecutionResult) :
    SimulatedBy (Raised mode) (access inst r) (access inst r) := by
  cases inst with
  | iType inst =>
      unfold access
      dsimp only
      split
      · exact .bind (simulatedBy_readWord fun _ _ _ => rfl) fun w => (Coupled.pure _).simulatedBy
      · exact (Coupled.pure _).simulatedBy
  | sType inst =>
      unfold access
      refine .bind (Coupled.reads fun c c' h => congrFun h.x.symm _).simulatedBy fun data => ?_
      refine .bind (.zoom (MMU.simulatedBy_writeWord _ _) (fun _ _ h => h.mmu) ?_) fun _ =>
        (Coupled.pure _).simulatedBy
      exact fun _ _ _ _ h hm => ⟨hm, h.registerBank, h.result⟩
  | _ => exact (Coupled.pure _).simulatedBy

theorem simulatedBy_retire (inst : DecodedInstructionVariant) (r : ExecutionResult)
    (m : MemoryAccessResult) : SimulatedBy (Raised mode) (retire inst r m) (retire inst r m) := by
  refine (coupled_retire inst r m fun rd value => .modify fun c c' h => ?_).simulatedBy
  exact ⟨h.mmu, congrArg (·.setX rd value) h.registerBank, h.result⟩

/-- A cycle that returns in user mode returns in every mode, and does the same. -/
theorem simulatedBy_cycle : SimulatedBy (Raised mode) cycle cycle :=
  .bind simulatedBy_toExecute fun p => .bind (simulatedBy_access p.1 p.2) fun m =>
    simulatedBy_retire p.1 p.2 m

end Core

/-! ## runs -/

/-- The pipeline with its MMU in the mode given, all else as it is. -/
def Pipeline.inMode (self : Pipeline) (mode : PrivilegeMode) : Pipeline :=
  { self with mmu := self.mmu.setPrivilegeMode mode }

/-- Every access that succeeds in user mode succeeds in `mode`, with the same
result, and leaves the same memory and page table. -/
structure MMU.Monotone (m : MMU) (mode : PrivilegeMode) : Prop where
  read : ∀ va b, (m.setPrivilegeMode .user).read va = .ok b →
    (m.setPrivilegeMode mode).read va = .ok b
  readWord : ∀ va w, (m.setPrivilegeMode .user).readWord va = .ok w →
    (m.setPrivilegeMode mode).readWord va = .ok w
  write : ∀ va b n, (MMU.write va b).run (m.setPrivilegeMode .user) = .ok () n →
    (MMU.write va b).run (m.setPrivilegeMode mode) = .ok () (n.setPrivilegeMode mode)
  writeWord : ∀ va w n, (MMU.writeWord va w).run (m.setPrivilegeMode .user) = .ok () n →
    (MMU.writeWord va w).run (m.setPrivilegeMode mode) = .ok () (n.setPrivilegeMode mode)

theorem MMU.raised_setPrivilegeMode (m : MMU) (mode : PrivilegeMode) :
    Raised mode (m.setPrivilegeMode .user) (m.setPrivilegeMode mode) :=
  ⟨rfl, rfl⟩

/-- Accesses that move a raised MMU along take it to the raised state. -/
theorem MMU.run_raised {mode : PrivilegeMode} {x : EStateM Exception MMU Unit} {m m' n : MMU}
    (hx : SimulatedBy (Raised mode) x x) (h : Raised mode m m') (hrun : x.run m = .ok () n) :
    x.run m' = .ok () (n.setPrivilegeMode mode) := by
  obtain ⟨n', hn', hR⟩ := hx _ _ h _ _ hrun
  rw [hn', hR.eq]

theorem MMU.monotone (m : MMU) (mode : PrivilegeMode) : m.Monotone mode where
  read _ _ := (m.raised_setPrivilegeMode mode).read
  readWord _ _ := (m.raised_setPrivilegeMode mode).readWord
  write va b _ := run_raised (simulatedBy_write va b) (m.raised_setPrivilegeMode mode)
  writeWord va w _ := run_raised (simulatedBy_writeWord va w) (m.raised_setPrivilegeMode mode)

theorem Pipeline.simulatedBy_runCycle {mode : PrivilegeMode} :
    SimulatedBy (fun s s' : Pipeline => Core.Raised mode s.core s'.core) runCycle runCycle :=
  .of_coupled runCycle_core Core.simulatedBy_cycle

theorem Pipeline.raised_inMode (s : Pipeline) (mode : PrivilegeMode) :
    Core.Raised mode (s.inMode .user).core (s.inMode mode).core :=
  ⟨s.mmu.raised_setPrivilegeMode mode, rfl, rfl⟩

/-- **Privilege is monotone**: a run whose cycles all return in user mode
returns in every mode, with the same registers, `pc` and memory after each
cycle; and so does every single access. -/
theorem privilege_monotone (s : Pipeline) (mode : PrivilegeMode) :
    (∀ n, Completes Pipeline.runCycle n (s.inMode .user) →
      Completes Pipeline.runCycle n (s.inMode mode) ∧
      ∀ k ≤ n,
        (after Pipeline.runCycle k (s.inMode mode)).registerBank =
          (after Pipeline.runCycle k (s.inMode .user)).registerBank ∧
        (after Pipeline.runCycle k (s.inMode mode)).mmu.physicalMemory =
          (after Pipeline.runCycle k (s.inMode .user)).mmu.physicalMemory) ∧
    s.mmu.Monotone mode := by
  refine ⟨fun n h => ?_, s.mmu.monotone mode⟩
  obtain ⟨hc, hR⟩ := Pipeline.simulatedBy_runCycle.after (s.raised_inMode mode) h
  refine ⟨hc, fun k hk => ⟨(hR k hk).registerBank, ?_⟩⟩
  have hmmu := congrArg MMU.physicalMemory (hR k hk).mmu.eq
  exact hmmu

/-- Not the other way round: a page that is not user accessible is executed
from in machine mode, and refused in user mode. -/
example :
    let s : Pipeline :=
      .new .new ⟨⟨[0x93, 0x00, 0x50, 0x00]⟩, PageTable.new.addEntry 0 ⟨0xF⟩, .machine⟩ ⟨0, 0, 0⟩
    outcome (Pipeline.runCycle.run (s.inMode .machine)) = .ok () ∧
    outcome (Pipeline.runCycle.run (s.inMode .user)) = .error
      (.accessViolationException "MMU::translate_address - Read not permitted on this page") := by
  decide +kernel

end VirtuV
