import VirtuV.Footprint
import VirtuV.Lib.Interference

/-!
# VirtuV.Isolation

Several machines over one memory.

An MMU is given its `PhysicalMemory` by pointer, so a host can build any number
of pipelines over one memory, each with its own register bank, page table and
mode, and call them in any order.

* **requests** — what the host can ask of one machine, changes of its page
  table and of its mode included, and the bytes a request can change;
* **policies** — the addresses a machine may read and may write, whatever its
  mode;
* **one request** — what it does to two machines that agree on the bytes that
  may be read;
* **mediation** — a byte that has changed was, at some time, one that a machine
  could write;
* **isolation** — what a machine replies and comes to is what it would be had
  the machines from which nothing may flow to it never been called.
-/

namespace VirtuV

open Stateful
open Interference (purge)

/-! ## requests -/

/-- A call of a machine, through its pipeline, MMU, page table or register
bank. -/
inductive Request where
  | runCycle
  | access (access : Access)
  | translateAddress (virtualAddress : Word) (isWrite : Bool)
  | addEntry (virtualAddress : Word) (entry : PageTableEntry)
  | setPrivilegeMode (mode : PrivilegeMode)
  | readRegister (reg : BitVec 8)
  | writeRegister (reg : BitVec 8) (value : Word)
  | getPc
  | setPc (value : Word)
deriving DecidableEq, Repr

namespace Request

/-- Carry out a request. -/
def perform : Request → PipelineM Response
  | runCycle => do
    Pipeline.runCycle
    return .done
  | access a => zoom Pipeline.mmu (fun mmu s => { s with mmu }) a.perform
  | translateAddress va isWrite => return .word (← tries (·.mmu.translateAddress va isWrite))
  | addEntry va entry => do
    modify fun s =>
      { s with mmu := { s.mmu with pageTable := s.mmu.pageTable.addEntry va entry } }
    return .done
  | setPrivilegeMode mode => do
    modify fun s => { s with mmu := s.mmu.setPrivilegeMode mode }
    return .done
  | readRegister reg => return .word (← tries (·.registerBank.read reg))
  | writeRegister reg value => do
    let registerBank ← tries (·.registerBank.write reg value)
    modify ({ · with registerBank })
    return .done
  | getPc => return .word (← reads (·.registerBank.getPc))
  | setPc value => do
    modify fun s => { s with registerBank := s.registerBank.setPc value }
    return .done

/-- The MMU with the entry or the mode that a request sets. -/
def configure : Request → MMU → MMU
  | addEntry va entry, mmu => { mmu with pageTable := mmu.pageTable.addEntry va entry }
  | setPrivilegeMode mode, mmu => mmu.setPrivilegeMode mode
  | _, mmu => mmu

theorem configure_physicalMemory (r : Request) (mmu : MMU) :
    (r.configure mmu).physicalMemory = mmu.physicalMemory := by
  cases r <;> rfl

/-- The machine a request leaves, whether it returned or threw. -/
def next (r : Request) (s : Pipeline) : Pipeline := final (r.perform.run s)

section OfWrite

variable {R : MMU → MMU → Prop} [IsPreorder MMU R] (hwrite : ∀ va b, Keeps R (MMU.write va b))

include hwrite

theorem keeps_access_of_write (a : Access) : Keeps R a.perform := by
  cases a with
  | read va => exact .bind (.tries _) fun _ => .pure _
  | write va value => exact .bind (hwrite va value) fun _ => .pure _
  | readWord va => exact .bind (.tries _) fun _ => .pure _
  | writeWord va value =>
      exact .bind (MMU.keeps_writeWord_of_write hwrite va value) fun _ => .pure _

/-- What every byte write keeps of the MMU, a request keeps of the MMU it has
set up. -/
theorem rel_next (r : Request) (s : Pipeline) : R (r.configure s.mmu) (r.next s).mmu := by
  unfold next
  cases r with
  | runCycle =>
      have hcycle := Pipeline.rel_runCycle hwrite s
      rw [perform, EStateM.run_bind]
      cases hrun : Pipeline.runCycle.run s with
      | ok a t => rw [hrun] at hcycle; exact hcycle
      | error e t => rw [hrun] at hcycle; exact hcycle
  | access a =>
      rw [perform, final_zoom]
      exact keeps_access_of_write hwrite a s.mmu
  | translateAddress va isWrite =>
      rw [perform, EStateM.run_bind, run_tries]
      cases s.mmu.translateAddress va isWrite <;> exact refl s.mmu
  | readRegister reg =>
      rw [perform, EStateM.run_bind, run_tries]
      cases s.registerBank.read reg <;> exact refl s.mmu
  | writeRegister reg value =>
      rw [perform, EStateM.run_bind, run_tries]
      cases s.registerBank.write reg value <;> exact refl s.mmu
  | addEntry va entry => exact refl _
  | setPrivilegeMode mode => exact refl _
  | getPc => exact refl s.mmu
  | setPc value => exact refl s.mmu

end OfWrite

theorem size_next (r : Request) (s : Pipeline) :
    (r.next s).mmu.physicalMemory.size = s.mmu.physicalMemory.size := by
  rw [(rel_next MMU.keeps_layout r s).size, configure_physicalMemory]

/-- A byte that a request changes lies in a frame that the machine's table maps
writable in the machine's mode. -/
theorem maps_of_changed {r : Request} {s : Pipeline} {a : Nat}
    (h : (r.next s).mmu.physicalMemory.memory[a]? ≠ s.mmu.physicalMemory.memory[a]?) :
    a < 2 ^ 32 ∧
      s.mmu.pageTable.Maps (·.isWritable s.mmu.privilegeMode) (BitVec.ofNat 32 a) := by
  have hwritten := (rel_next MMU.keeps_write r s).written a
  cases r with
  | addEntry va entry => exact absurd rfl h
  | setPrivilegeMode mode => exact absurd rfl h
  | _ => exact hwritten h

end Request

/-! ## policies -/

/-- The physical addresses a machine may read and may write. -/
structure Policy where
  readable : Set Word
  writable : Set Word

/-- No mode lets an access through the table reach an address that the policy
does not list. -/
structure PageTable.Within (table : PageTable) (policy : Policy) : Prop where
  readable : ∀ a, table.Maps (·.isReadable .machine) a → a ∈ policy.readable
  writable : ∀ a, table.Maps (·.isWritable .machine) a → a ∈ policy.writable

namespace PageTable

variable {table : PageTable} {policy : Policy}

/-- MACHINE mode permits what any mode does. -/
theorem Maps.machine {bit a : Word} {mode : PrivilegeMode}
    (h : table.Maps (PageTableEntry.permits bit · mode) a) :
    table.Maps (PageTableEntry.permits bit · .machine) a := by
  obtain ⟨key, e, hkey, hentry, hperm, hframe⟩ := h
  refine ⟨key, e, hkey, hentry, ?_, hframe⟩
  cases mode with
  | user => exact PageTableEntry.permits_of_user hperm .machine
  | supervisor => exact hperm
  | machine => exact hperm

/-- What a table maps once an entry is added, it or the entry did. -/
theorem maps_addEntry {va a : Word} {entry : PageTableEntry} {allows : PageTableEntry → Bool}
    (h : (table.addEntry va entry).Maps allows a) :
    table.Maps allows a ∨ (new.addEntry va entry).Maps allows a := by
  obtain ⟨key, e, hkey, hentry, hallows, hframe⟩ := h
  by_cases hva : key = va
  · refine .inr ⟨key, e, hkey, ?_, hallows, hframe⟩
    rw [addEntry] at hentry ⊢
    dsimp only at hentry ⊢
    rwa [if_pos hva] at hentry ⊢
  · rw [addEntry] at hentry
    dsimp only at hentry
    rw [if_neg hva] at hentry
    exact .inl ⟨key, e, hkey, hentry, hallows, hframe⟩

theorem Within.addEntry (h : table.Within policy) {va : Word} {entry : PageTableEntry}
    (hentry : (new.addEntry va entry).Within policy) :
    (table.addEntry va entry).Within policy where
  readable a ha := (maps_addEntry ha).elim (h.readable a) (hentry.readable a)
  writable a ha := (maps_addEntry ha).elim (h.writable a) (hentry.writable a)

/-- The table of one entry is within a policy that lists its frame. -/
theorem within_of_frame {va : Word} {entry : PageTableEntry}
    (h : ∀ a, entry.entryValue &&& 0xFFFFF000 = a &&& 0xFFFFF000 →
      a ∈ policy.readable ∧ a ∈ policy.writable) : (new.addEntry va entry).Within policy := by
  have hframe : ∀ allows a, (new.addEntry va entry).Maps allows a →
      entry.entryValue &&& 0xFFFFF000 = a &&& 0xFFFFF000 := by
    rintro allows a ⟨key, e, -, hentry, -, hframe⟩
    rw [addEntry] at hentry
    dsimp only at hentry
    split_ifs at hentry
    · rwa [Option.some.inj hentry]
    · contradiction
  exact ⟨fun a ha => (h a (hframe _ a ha)).1, fun a ha => (h a (hframe _ a ha)).2⟩

end PageTable

namespace Request

/-- The request adds no entry that the policy forbids. -/
def Within (policy : Policy) : Request → Prop
  | addEntry va entry => (PageTable.new.addEntry va entry).Within policy
  | _ => True

/-- Within its policy a table stays. -/
theorem within_next {policy : Policy} {r : Request} (hr : r.Within policy) {s : Pipeline}
    (h : s.mmu.pageTable.Within policy) : (r.next s).mmu.pageTable.Within policy := by
  rw [(rel_next MMU.keeps_layout r s).pageTable]
  cases r with
  | addEntry va entry => exact h.addEntry hr
  | _ => exact h

/-- A byte that a request changes is one the policy lets the machine write. -/
theorem mem_writable_of_changed {policy : Policy} {r : Request} {s : Pipeline}
    (hs : s.mmu.pageTable.Within policy) {a : Word}
    (h : (r.next s).mmu.physicalMemory.memory[a.toNat]? ≠
      s.mmu.physicalMemory.memory[a.toNat]?) : a ∈ policy.writable := by
  have hmaps := (maps_of_changed h).2
  rw [BitVec.ofNat_toNat, BitVec.setWidth_eq] at hmaps
  exact hs.writable a hmaps.machine

end Request

/-! ## one request -/

namespace MMU

/-- Translation looks at the layout alone. -/
theorem SameLayout.translateAddress_eq {m m' : MMU} (h : m.SameLayout m') (va : Word)
    (isWrite : Bool) : m'.translateAddress va isWrite = m.translateAddress va isWrite := by
  unfold translateAddress
  rw [h.pageTable, h.privilegeMode]

/-- The second MMU differs from the first in nothing but bytes outside `A`,
and no read goes there, whatever the mode. -/
structure AgreeOn (A : Set Word) (m m' : MMU) : Prop where
  layout : m.SameLayout m'
  within : ∀ a, m.pageTable.Maps (·.isReadable .machine) a → a ∈ A
  memory : ∀ a ∈ A, m'.physicalMemory.memory[a.toNat]? = m.physicalMemory.memory[a.toNat]?

variable {A : Set Word} {m m' : MMU}

/-- Where a read goes the bytes are the same. -/
theorem AgreeOn.getElem?_eq (h : AgreeOn A m m') {va : Word} (hreach : m.Reaches false va) :
    m'.physicalMemory.memory[(m.physical va).toNat]? =
      m.physicalMemory.memory[(m.physical va).toNat]? :=
  h.memory _ (h.within _ (maps_of_grants hreach.1).machine)

theorem AgreeOn.read_eq (h : AgreeOn A m m') (va : Word) : m'.read va = m.read va :=
  h.layout.read_eq h.getElem?_eq

theorem AgreeOn.readWord_eq (h : AgreeOn A m m') (va : Word) : m'.readWord va = m.readWord va :=
  h.layout.readWord_eq fun _ _ => h.getElem?_eq

/-- What writes the same to both MMUs leaves them agreeing. -/
theorem coupled_agreeOn {α : Type} {x : EStateM Exception MMU α}
    (h : ∀ origin origin', Coupled (Agrees origin origin') x x) : Coupled (AgreeOn A) x x := by
  intro m m' hm
  have hstart : Agrees m m' m m' := ⟨refl m, hm.layout, fun _ => .inr ⟨rfl, rfl⟩⟩
  obtain ⟨ho, hend⟩ := h m m' m m' hstart
  refine ⟨ho, hend.sameLayout, fun a ha => hm.within a ?_, fun a ha => ?_⟩
  · rwa [hend.layout.pageTable] at ha
  · exact hend.getElem?_eq (hm.memory a ha)

theorem coupled_access_agreeOn (access : Access) :
    Coupled (AgreeOn A) access.perform access.perform := by
  cases access with
  | read va => exact .bind (.tries fun _ _ h => (h.read_eq va).symm) fun _ => .pure _
  | write va value =>
      exact .bind (coupled_agreeOn fun _ _ => coupled_write_agrees _ _ va value) fun _ => .pure _
  | readWord va => exact .bind (.tries fun _ _ h => (h.readWord_eq va).symm) fun _ => .pure _
  | writeWord va value =>
      exact .bind (coupled_agreeOn fun _ _ => coupled_writeWord_agrees _ _ va value)
        fun _ => .pure _

end MMU

/-- The pipelines are the same machine but for bytes outside `A`. -/
def Pipeline.AgreeOn (A : Set Word) (s t : Pipeline) : Prop :=
  Core.Over (MMU.AgreeOn A) s.core t.core

namespace Request

variable {A : Set Word}

/-- MMUs that agree do so once an entry or the mode is set in both. -/
theorem agreeOn_configure {policy : Policy} (hA : policy.readable ⊆ A) {r : Request}
    (hr : r.Within policy) {m m' : MMU} (h : m.AgreeOn A m') :
    (r.configure m).AgreeOn A (r.configure m') := by
  cases r with
  | addEntry va entry =>
      refine ⟨⟨?_, h.layout.privilegeMode, h.layout.size⟩, fun a ha => ?_, h.memory⟩
      · exact congrArg (·.addEntry va entry) h.layout.pageTable
      · rcases PageTable.maps_addEntry ha with hmaps | hmaps
        · exact h.within a hmaps
        · exact hA (hr.readable a hmaps)
  | setPrivilegeMode mode => exact ⟨⟨h.layout.pageTable, rfl, h.layout.size⟩, h.within, h.memory⟩
  | _ => exact h

/-- A cycle of machines that agree. -/
theorem coupled_runCycle : Coupled (Pipeline.AgreeOn A) Pipeline.runCycle Pipeline.runCycle := by
  intro s t h
  have hread : t.mmu.readWord s.registerBank.pc = s.mmu.readWord s.registerBank.pc :=
    h.mmu.readWord_eq _
  rw [Pipeline.AgreeOn, core_runCycle, core_runCycle, (runCycle_core s _ rfl).1,
    (runCycle_core t _ rfl).1]
  exact Core.over_cycle
    (fun _ _ => MMU.coupled_agreeOn fun _ _ => MMU.coupled_writeWord_agrees _ _ _ _) h hread

/-- **One request**: machines that agree on what may be read reply the same
and agree afterwards. -/
theorem coupled_perform {policy : Policy} (hA : policy.readable ⊆ A) {r : Request}
    (hr : r.Within policy) : Coupled (Pipeline.AgreeOn A) r.perform r.perform := by
  cases r with
  | runCycle => exact .bind coupled_runCycle fun _ => .pure _
  | access a =>
      exact .zoom (MMU.coupled_access_agreeOn a) (fun _ _ h => h.mmu)
        fun _ _ _ _ h hm => ⟨hm, h.registerBank, h.result⟩
  | translateAddress va isWrite =>
      exact .bind (.tries fun _ _ h => (h.mmu.layout.translateAddress_eq va isWrite).symm)
        fun _ => .pure _
  | addEntry va entry =>
      exact .bind (.modify fun _ _ h =>
        ⟨agreeOn_configure hA hr h.mmu, h.registerBank, h.result⟩) fun _ => .pure _
  | setPrivilegeMode mode =>
      exact .bind (.modify fun _ _ h =>
        ⟨agreeOn_configure hA (r := setPrivilegeMode mode) hr h.mmu, h.registerBank, h.result⟩)
        fun _ => .pure _
  | readRegister reg =>
      exact .bind (.tries fun _ _ h => congrArg (·.read reg) h.registerBank.symm) fun _ => .pure _
  | writeRegister reg value =>
      exact .bind (.tries fun _ _ h => congrArg (·.write reg value) h.registerBank.symm) fun _ =>
        .bind (.modify fun _ _ h => ⟨h.mmu, rfl, h.result⟩) fun _ => .pure _
  | getPc => exact .bind (.reads fun _ _ h => h.pc.symm) fun _ => .pure _
  | setPc value =>
      exact .bind (.modify fun _ _ h =>
        ⟨h.mmu, congrArg (·.setPc value) h.registerBank, h.result⟩) fun _ => .pure _

end Request

/-! ## machines over one memory -/

/-- The pipeline over another memory. -/
def Pipeline.over (self : Pipeline) (physicalMemory : PhysicalMemory) : Pipeline :=
  { self with mmu := { self.mmu with physicalMemory } }

/-- Pipelines whose MMUs point to one memory. -/
structure Machines (ι : Type) where
  pipelines : ι → Pipeline
  shared : ∀ i j, (pipelines i).mmu.physicalMemory = (pipelines j).mmu.physicalMemory

namespace Machines

variable {ι : Type} [DecidableEq ι]

/-- Machine `i` as it has become, and the others over the memory it leaves. -/
def put (s : Machines ι) (i : ι) (p : Pipeline) : Machines ι where
  pipelines j := if j = i then p else (s.pipelines j).over p.mmu.physicalMemory
  shared j k := by
    split_ifs <;> rfl

theorem put_self (s : Machines ι) (i : ι) (p : Pipeline) : (s.put i p).pipelines i = p :=
  if_pos rfl

theorem put_of_ne (s : Machines ι) {i j : ι} (h : j ≠ i) (p : Pipeline) :
    (s.put i p).pipelines j = (s.pipelines j).over p.mmu.physicalMemory :=
  if_neg h

/-- A request made to machine `i`. -/
def request (i : ι) (r : Request) (s : Machines ι) : Except Exception Response × Machines ι :=
  (outcome (r.perform.run (s.pipelines i)), s.put i (r.next (s.pipelines i)))

/-- Requests made one after the other: the replies, each with the machine it
came from, and what the machines come to. -/
def requests (s : Machines ι) (rs : List (ι × Request)) :
    List (ι × Except Exception Response) × Machines ι :=
  Interference.run request rs s

/-- The memory the machines are left with is that of the machine called. -/
theorem physicalMemory_request (s : Machines ι) (i j : ι) (r : Request) :
    ((request i r s).2.pipelines j).mmu.physicalMemory =
      (r.next (s.pipelines i)).mmu.physicalMemory := by
  rw [(request i r s).2.shared j i, request, put_self]

end Machines

/-- **Mediation**: for every byte that requests have changed there is a request
among them at the time of which the byte lay in a frame that the page table the
called machine then had mapped writable in the mode it then was in. -/
theorem machines_mediated {ι : Type} [DecidableEq ι] (s : Machines ι)
    (rs : List (ι × Request)) (i : ι) (a : Nat)
    (h : ((s.requests rs).2.pipelines i).mmu.physicalMemory.memory[a]? ≠
      (s.pipelines i).mmu.physicalMemory.memory[a]?) :
    ∃ before j r rest, rs = before ++ (j, r) :: rest ∧ a < 2 ^ 32 ∧
      ((s.requests before).2.pipelines j).mmu.pageTable.Maps
        (·.isWritable ((s.requests before).2.pipelines j).mmu.privilegeMode)
        (BitVec.ofNat 32 a) := by
  induction rs generalizing s with
  | nil => exact absurd rfl h
  | cons jr rs ih =>
      obtain ⟨j, r⟩ := jr
      by_cases hfirst : ((Machines.request j r s).2.pipelines i).mmu.physicalMemory.memory[a]? =
          (s.pipelines i).mmu.physicalMemory.memory[a]?
      · -- the byte is changed later on
        rw [← hfirst] at h
        obtain ⟨before, k, q, rest, rfl, hlt, hmaps⟩ := ih (Machines.request j r s).2 h
        exact ⟨(j, r) :: before, k, q, rest, rfl, hlt, hmaps⟩
      · rw [s.physicalMemory_request, s.shared i j] at hfirst
        exact ⟨[], j, r, rs, rfl, Request.maps_of_changed hfirst⟩

/-- A machine alone, whose first byte is written in USER mode. -/
theorem machines_mediated_user :
    let s : Machines Unit := ⟨fun _ => (CPU.new 8 ⟨0, 0, 0⟩).pipeline, fun _ _ => rfl⟩
    ∃ before j r rest,
      [((), Request.setPrivilegeMode .user), ((), .access (.write 0 1))] =
        before ++ (j, r) :: rest ∧ 0 < 2 ^ 32 ∧
      ((s.requests before).2.pipelines j).mmu.pageTable.Maps
        (·.isWritable ((s.requests before).2.pipelines j).mmu.privilegeMode) 0 :=
  machines_mediated ⟨fun _ => (CPU.new 8 ⟨0, 0, 0⟩).pipeline, fun _ _ => rfl⟩
    [((), .setPrivilegeMode .user), ((), .access (.write 0 1))] () 0 (by decide +kernel)

/-! ## isolation -/

namespace Machines

variable {ι : Type} [DecidableEq ι]

/-- A machine that agrees with another does so over memories that agree. -/
theorem agreeOn_over {A : Set Word} {s t : Pipeline} (h : s.AgreeOn A t) {m m' : PhysicalMemory}
    (hsize : m'.size = m.size) (hmemory : ∀ a ∈ A, m'.memory[a.toNat]? = m.memory[a.toNat]?) :
    (s.over m).AgreeOn A (t.over m') :=
  ⟨⟨⟨h.mmu.layout.pageTable, h.mmu.layout.privilegeMode, hsize⟩, h.mmu.within, hmemory⟩,
    h.registerBank, h.result⟩

section Policies

variable (flows : ι → ι → Prop) (policy : ι → Policy)

/-- The addresses read by machine `i` or by one that may flow to it. -/
def seen (i : ι) : Set Word := {a | ∃ j, flows j i ∧ a ∈ (policy j).readable}

/-- What machine `i` has no way of telling apart. -/
structure Alike (i : ι) (s t : Machines ι) : Prop where
  within : ∀ j, (s.pipelines j).mmu.pageTable.Within (policy j)
  agree : ∀ j, flows j i → (s.pipelines j).AgreeOn (seen flows policy i) (t.pipelines j)

variable {flows policy}

/-- The tables stay within the policy. -/
theorem within_request {s : Machines ι}
    (h : ∀ j, (s.pipelines j).mmu.pageTable.Within (policy j)) {i : ι} {r : Request}
    (hr : r.Within (policy i)) (j : ι) :
    ((request i r s).2.pipelines j).mmu.pageTable.Within (policy j) := by
  rw [request]
  by_cases hj : j = i
  · subst hj
    rw [put_self]
    exact Request.within_next hr (h j)
  · rw [put_of_ne s hj]
    exact h j

/-- **One request of many**: a machine that may not flow to `i` changes
nothing that `i` can tell, and one that may replies the same wherever `i` can
tell no difference. -/
theorem unwinding [IsPreorder ι flows]
    (hpolicy : ∀ i j, ¬ flows i j → ∀ a ∈ (policy i).writable, a ∉ (policy j).readable) (i : ι) :
    Interference.Unwinding request flows (fun j r => r.Within (policy j)) i
      (Alike flows policy i) where
  respects {j r s t} hj hr h := by
    refine ⟨within_request h.within hr, fun k hk => ?_⟩
    have hne : k ≠ j := fun heq => hj (heq ▸ hk)
    rw [request, put_of_ne s hne]
    refine agreeOn_over (h.agree k hk) ?_ fun a ha => ?_
    · rw [Request.size_next, s.shared j k]
      exact (h.agree k hk).mmu.layout.size
    · have hagree := (h.agree k hk).mmu.memory a ha
      obtain ⟨l, hl, hread⟩ := ha
      have hflow : ¬ flows j l := fun hjl => hj (IsTrans.trans j l i hjl hl)
      refine hagree.trans ?_
      change (s.pipelines k).mmu.physicalMemory.memory[a.toNat]? = _
      rw [← s.shared j k]
      by_contra hchanged
      have hwrite := Request.mem_writable_of_changed (h.within j) (Ne.symm hchanged)
      exact hpolicy j l hflow a hwrite hread
  consistent {j r s t} hj hr h := by
    have hA : (policy j).readable ⊆ seen flows policy i := fun a ha => ⟨j, hj, ha⟩
    obtain ⟨ho, hend⟩ := Request.coupled_perform hA hr _ _ (h.agree j hj)
    refine ⟨ho, within_request h.within hr, fun k hk => ?_⟩
    rw [request, request]
    by_cases hk' : k = j
    · subst hk'
      rw [put_self, put_self]
      exact hend
    · rw [put_of_ne s hk', put_of_ne t hk']
      exact agreeOn_over (h.agree k hk) hend.mmu.layout.size hend.mmu.memory

end Policies

end Machines

/-- **Isolation**: let no machine be able to write what a machine it may not
flow to can read.  Then, whatever the order of the requests made of them, what
a machine replies is what it replies when only the requests to the machines
that may flow to it are made, and it ends with the same registers, `pc` and
readable memory. -/
theorem machines_isolated {ι : Type} [DecidableEq ι] {flows : ι → ι → Prop} [DecidableRel flows]
    [IsPreorder ι flows] {policy : ι → Policy}
    (hpolicy : ∀ i j, ¬ flows i j → ∀ a ∈ (policy i).writable, a ∉ (policy j).readable)
    {s : Machines ι} (hs : ∀ i, (s.pipelines i).mmu.pageTable.Within (policy i))
    {rs : List (ι × Request)} (hrs : ∀ r ∈ rs, r.2.Within (policy r.1)) (i : ι) :
    purge flows i (s.requests rs).1 = (s.requests (purge flows i rs)).1 ∧
      ((s.requests (purge flows i rs)).2.pipelines i).registerBank =
        ((s.requests rs).2.pipelines i).registerBank ∧
      ∀ a ∈ (policy i).readable,
        ((s.requests (purge flows i rs)).2.pipelines i).mmu.physicalMemory.memory[a.toNat]? =
          ((s.requests rs).2.pipelines i).mmu.physicalMemory.memory[a.toNat]? := by
  have hstart : Machines.Alike flows policy i s s := by
    refine ⟨hs, fun j hj => ⟨⟨refl _, fun a ha => ?_, fun _ _ => rfl⟩, rfl, rfl⟩⟩
    exact ⟨j, hj, (hs j).readable a ha⟩
  obtain ⟨hreplies, hend⟩ := (Machines.unwinding hpolicy i).run_purge rs hrs hstart
  have hagree := hend.agree i (refl i)
  exact ⟨hreplies, hagree.registerBank, fun a ha => hagree.mmu.memory a ⟨i, refl i, ha⟩⟩

/-- A frame of its own for each of two machines. -/
def ownFrame (b : Bool) : Policy :=
  let frame : Set Word := {a | a &&& 0xFFFFF000 = if b then 0x1000 else 0}
  ⟨frame, frame⟩

/-- Two machines, each in USER mode with its frame as its first page. -/
def twoMachines : Machines Bool where
  pipelines b :=
    .new .new ⟨.new 8192, PageTable.new.addEntry 0 ⟨if b then 0x101F else 0x1F⟩, .user⟩ ⟨0, 0, 0⟩
  shared _ _ := rfl

theorem ownFrame_disjoint (i j : Bool) (hne : ¬ i = j) (a : Word)
    (hi : a ∈ (ownFrame i).writable) : a ∉ (ownFrame j).readable := by
  intro hj
  have hi' : a &&& 0xFFFFF000 = if i then 0x1000 else 0 := hi
  have hj' : a &&& 0xFFFFF000 = if j then 0x1000 else 0 := hj
  rw [hi'] at hj'
  revert hj' hne
  cases i <;> cases j <;> decide

theorem within_ownFrame (b : Bool) (va : Word) :
    (PageTable.new.addEntry va ⟨if b then 0x101F else 0x1F⟩).Within (ownFrame b) := by
  refine PageTable.within_of_frame fun a ha => ⟨?_, ?_⟩
  all_goals
    change a &&& 0xFFFFF000 = if b then 0x1000 else 0
    rw [← ha]
    cases b <;> rfl

/-- The one machine stores a word and runs it while the other, in MACHINE mode
and with a second page onto its frame, stores there. -/
theorem machines_isolated_two :
    purge Eq true (twoMachines.requests
        [(true, .access (.writeWord 0 0x00700093)), (false, .setPrivilegeMode .machine),
          (false, .addEntry 0x5000 ⟨0x1F⟩), (false, .access (.writeWord 0x5000 9)),
          (true, .runCycle), (true, .readRegister 1)]).1 =
      (twoMachines.requests
        [(true, .access (.writeWord 0 0x00700093)), (true, .runCycle),
          (true, .readRegister 1)]).1 := by
  refine (machines_isolated ownFrame_disjoint (s := twoMachines)
    (fun b => within_ownFrame b 0) ?_ true).1
  simp only [List.forall_mem_cons, Request.Within, true_and]
  exact ⟨within_ownFrame false 0x5000, fun _ h => absurd h List.not_mem_nil⟩

end VirtuV
