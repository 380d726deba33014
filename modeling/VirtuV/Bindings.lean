import VirtuV.Immediate
import VirtuV.Cycle
import VirtuV.Lib.BitFields

/-!
# VirtuV.Bindings

Decoded instructions as a host assembles them.

A bit field has no address, so the bindings give every field of a format a
property: a getter and a setter, each naming the field it is for.  The setter
of `rd` of the R format names `opcode`.

* **the formats** — their bit fields, side by side in a word;
* **assembling** — where assignments to properties lead, and what they read as.
-/

namespace VirtuV

open Stateful
open BitFields (Field layout)

/-! ## the formats -/

/-- The names of the bit fields. -/
inductive FieldName where
  | opcode
  | rest
  | rd
  | funct3
  | rs1
  | rs2
  | funct7
  | imm
  | imm4_0
  | imm11_5
  | imm11
  | imm4_1
  | imm10_5
  | imm12
  | imm19_12
  | imm10_1
  | imm20
deriving DecidableEq, Repr

namespace InstructionFormat

/-- The bit fields of a format and their widths, in the order declared. -/
def bitFields : InstructionFormat → List (FieldName × Nat)
  | rType => [(.opcode, 7), (.rd, 5), (.funct3, 3), (.rs1, 5), (.rs2, 5), (.funct7, 7)]
  | iType => [(.opcode, 7), (.rd, 5), (.funct3, 3), (.rs1, 5), (.imm, 12)]
  | sType => [(.opcode, 7), (.imm4_0, 5), (.funct3, 3), (.rs1, 5), (.rs2, 5), (.imm11_5, 7)]
  | bType => [(.opcode, 7), (.imm11, 1), (.imm4_1, 4), (.funct3, 3), (.rs1, 5), (.rs2, 5),
      (.imm10_5, 6), (.imm12, 1)]
  | uType => [(.opcode, 7), (.rd, 5), (.imm, 20)]
  | jType => [(.opcode, 7), (.rd, 5), (.imm19_12, 8), (.imm11, 1), (.imm10_1, 10), (.imm20, 1)]
  | invalidType => [(.opcode, 7), (.rest, 25)]

/-- The places of the fields: side by side from bit 0 on. -/
def places (format : InstructionFormat) : List Field := layout 0 (format.bitFields.map (·.2))

/-- The place of a field: no bit at all if the format has none of the name. -/
def place (format : InstructionFormat) (name : FieldName) : Field :=
  (((format.bitFields.map (·.1)).zip format.places).lookup name).getD ⟨0, 0⟩

/-- Only the immediate of the I format is declared `int32_t`. -/
def signed (format : InstructionFormat) (name : FieldName) : Bool :=
  format == iType && name == .imm

end InstructionFormat

/-- A property: the field its getter returns and the one its setter assigns. -/
structure Property where
  getter : FieldName
  setter : FieldName
deriving DecidableEq, Repr

/-- The property of a field. -/
def Property.of (name : FieldName) : Property := ⟨name, name⟩

/-- The properties of a format. -/
def InstructionFormat.properties : InstructionFormat → List Property
  | rType => [.of .opcode, ⟨.rd, .opcode⟩, .of .funct3, .of .rs1, .of .rs2, .of .funct7]
  | iType => [.of .opcode, .of .rd, .of .funct3, .of .rs1, .of .imm]
  | sType => [.of .opcode, .of .imm4_0, .of .funct3, .of .rs1, .of .rs2, .of .imm11_5]
  | bType => [.of .opcode, .of .imm11, .of .imm4_1, .of .funct3, .of .rs1, .of .rs2, .of .imm10_5,
      .of .imm12]
  | uType => [.of .opcode, .of .rd, .of .imm]
  | jType => [.of .opcode, .of .rd, .of .imm19_12, .of .imm11, .of .imm10_1, .of .imm20]
  | invalidType => []

namespace DecodedInstruction

variable {format : InstructionFormat}

/-- The value of a field, widened to the 32 bits of its type. -/
def widen (format : InstructionFormat) (name : FieldName) {w : Nat} (value : BitVec w) : Word :=
  if format.signed name then value.signExtend 32 else value.setWidth 32

/-- The getter of a property. -/
def getProperty (self : DecodedInstruction format) (p : Property) : Word :=
  widen format p.getter ((format.place p.getter).get self.raw)

/-- The setter of a property. -/
def setProperty (self : DecodedInstruction format) (p : Property) (value : Word) :
    DecodedInstruction format :=
  ⟨(format.place p.setter).set value self.raw⟩

/-- One assignment after the other. -/
def setProperties (self : DecodedInstruction format) (as : List (Property × Word)) :
    DecodedInstruction format :=
  as.foldl (fun inst a => inst.setProperty a.1 a.2) self

end DecodedInstruction

/-! ## assembling -/

namespace InstructionFormat

/-- The places of the fields that setters of the format assign. -/
def assignable (format : InstructionFormat) : List Field :=
  format.properties.map fun p => format.place p.setter

/-- Every property is for fields of its format. -/
theorem place_mem_places {format : InstructionFormat} {p : Property}
    (hp : p ∈ format.properties) :
    format.place p.getter ∈ format.places ∧ format.place p.setter ∈ format.places := by
  revert hp
  revert p
  cases format <;> decide

/-- No field of a format reaches beyond its word. -/
theorem le_of_mem_places {format : InstructionFormat} {f : Field} (hf : f ∈ format.places) :
    f.lo + f.width ≤ 32 := by
  revert hf
  revert f
  cases format <;> decide

end InstructionFormat

namespace DecodedInstruction

variable {format : InstructionFormat}

/-- Assignments to properties are assignments to the fields of their setters. -/
theorem raw_setProperties (self : DecodedInstruction format) (as : List (Property × Word)) :
    (self.setProperties as).raw =
      BitFields.assign (as.map fun a => (format.place a.1.setter, a.2)) self.raw := by
  induction as generalizing self with
  | nil => rfl
  | cons a as ih => exact ih (self.setProperty a.1 a.2)

/-- And the other way around. -/
theorem exists_property_assignments {as : List (Field × Word)}
    (has : ∀ a ∈ as, a.1 ∈ format.assignable) :
    ∃ bs : List (Property × Word), (∀ b ∈ bs, b.1 ∈ format.properties) ∧
      (bs.map fun b => (format.place b.1.setter, b.2)) = as := by
  induction as with
  | nil => exact ⟨[], by simp, rfl⟩
  | cons a as ih =>
      obtain ⟨hfirst, hothers⟩ := List.forall_mem_cons.mp has
      obtain ⟨p, hp, hplace⟩ := List.mem_map.mp hfirst
      obtain ⟨bs, hbs, hmap⟩ := ih hothers
      refine ⟨(p, a.2) :: bs, List.forall_mem_cons.mpr ⟨hp, hbs⟩, ?_⟩
      rw [List.map_cons, hmap, hplace]

/-- So where they lead is settled by the bits that no setter assigns. -/
theorem exists_setProperties_iff (raw raw' : Word) :
    (∃ as : List (Property × Word), (∀ a ∈ as, a.1 ∈ format.properties) ∧
      (⟨raw⟩ : DecodedInstruction format).setProperties as = ⟨raw'⟩) ↔
    ∀ i (hi : i < 32), (∀ f ∈ format.assignable, ¬ f.Covers i) → raw'[i] = raw[i] := by
  rw [← BitFields.exists_assign_iff]
  constructor
  · rintro ⟨as, has, hraw⟩
    refine ⟨as.map fun a => (format.place a.1.setter, a.2), fun a ha => ?_, ?_⟩
    · obtain ⟨b, hb, rfl⟩ := List.mem_map.mp ha
      exact List.mem_map_of_mem (has b hb)
    · rw [← raw_setProperties ⟨raw⟩ as, hraw]
  · rintro ⟨as, has, rfl⟩
    obtain ⟨bs, hbs, rfl⟩ := exists_property_assignments has
    refine ⟨bs, hbs, ?_⟩
    rw [← raw_setProperties ⟨raw⟩ bs]

/-- The bits that no setter of a format assigns: `rd` in the R format, all in
the invalid one. -/
def Fixed : InstructionFormat → Nat → Prop
  | .rType, i => 7 ≤ i ∧ i < 12
  | .invalidType, _ => True
  | _, _ => False

instance (format : InstructionFormat) (i : Nat) : Decidable (Fixed format i) := by
  cases format <;> unfold Fixed <;> infer_instance

theorem fixed_iff {i : Nat} (hi : i < 32) :
    (∀ f ∈ format.assignable, ¬ f.Covers i) ↔ Fixed format i := by
  have hall : ∀ i : Fin 32, (∀ f ∈ format.assignable, ¬ f.Covers i) ↔ Fixed format i := by
    cases format <;> decide
  exact hall ⟨i, hi⟩

/-- The words that assignments to the properties of a format lead to. -/
theorem setProperties_reach (format : InstructionFormat) (raw raw' : Word) :
    (∃ as : List (Property × Word), (∀ a ∈ as, a.1 ∈ format.properties) ∧
      (⟨raw⟩ : DecodedInstruction format).setProperties as = ⟨raw'⟩) ↔
    match format with
    | .rType => raw'.extractLsb' 7 5 = raw.extractLsb' 7 5
    | .invalidType => raw' = raw
    | _ => True := by
  have hall : (∀ i (hi : i < 32), (∀ f ∈ format.assignable, ¬ f.Covers i) → raw'[i] = raw[i]) ↔
      ∀ i (hi : i < 32), Fixed format i → raw'[i] = raw[i] :=
    forall₂_congr fun i hi => imp_congr_left (fixed_iff hi)
  rw [exists_setProperties_iff, hall]
  cases format with
  | rType => exact (Field.get_eq_iff ⟨7, 5⟩ raw' raw).symm
  | invalidType =>
      refine ⟨fun h => BitVec.eq_of_getElem_eq fun i hi => h i hi trivial, ?_⟩
      rintro rfl i hi -
      rfl
  | _ => exact ⟨fun _ => trivial, fun _ i hi h => absurd h not_false⟩

end DecodedInstruction

/-- **Assembling an instruction**: through the properties of its format an
instruction of any format can be made out of any other of it, but for the R
format, where exactly `rd` stays what it was at first.  So whatever is done to
an R instruction through its properties, write back writes the register it was
constructed with. -/
theorem properties_reach (format : InstructionFormat) (raw raw' : Word) :
    ((∃ as : List (Property × Word), (∀ a ∈ as, a.1 ∈ format.properties) ∧
        (⟨raw⟩ : DecodedInstruction format).setProperties as = ⟨raw'⟩) ↔
      match format with
      | .rType => raw'.extractLsb' 7 5 = raw.extractLsb' 7 5
      | .invalidType => raw' = raw
      | _ => True) ∧
    ∀ (as : List (Property × Word)) (s : Pipeline),
      (∀ a ∈ as, a.1 ∈ InstructionFormat.rType.properties) →
      s.writeBackStage.decodedInstruction =
        .rType ((⟨raw⟩ : DecodedInstruction .rType).setProperties as) →
      outcome (WriteBackStage.process.run s) = .ok () ∧
        (final (WriteBackStage.process.run s)).registerBank = s.registerBank.setX
          (raw.extractLsb' 7 5) s.writeBackStage.executionResult.aluResult := by
  refine ⟨DecodedInstruction.setProperties_reach format raw raw', fun as s has hinst => ?_⟩
  have hrd : ((⟨raw⟩ : DecodedInstruction .rType).setProperties as).rd = raw.extractLsb' 7 5 :=
    (DecodedInstruction.setProperties_reach .rType raw _).mp ⟨as, has, rfl⟩
  unfold WriteBackStage.process
  simp only [EStateM.run_bind, run_reads, hinst, run_writeRd, hrd]
  exact ⟨rfl, rfl⟩

/-- The last value given to a property that assigns the field of this name. -/
def lastAssigned (name : FieldName) : List (Property × Word) → Option Word
  | [] => none
  | a :: as => (lastAssigned name as).or (if a.1.setter = name then some a.2 else none)

namespace DecodedInstruction

variable {format : InstructionFormat}

/-- Of the fields the properties of a format are for, each has its own place. -/
theorem place_inj {p q : Property} (hp : p ∈ format.properties) (hq : q ∈ format.properties)
    (h : format.place p.setter = format.place q.getter) : p.setter = q.getter := by
  have hall : ∀ p ∈ format.properties, ∀ q ∈ format.properties,
      format.place p.setter = format.place q.getter → p.setter = q.getter := by
    cases format <;> decide
  exact hall p hp q hq h

/-- The last assignment to a property for a field is the last to its place. -/
theorem lastOf_place {q : Property} (hq : q ∈ format.properties) {as : List (Property × Word)}
    (has : ∀ a ∈ as, a.1 ∈ format.properties) :
    BitFields.lastOf (format.place q.getter) (as.map fun a => (format.place a.1.setter, a.2)) =
      lastAssigned q.getter as := by
  induction as with
  | nil => rfl
  | cons a as ih =>
      obtain ⟨hfirst, hothers⟩ := List.forall_mem_cons.mp has
      have hiff : format.place a.1.setter = format.place q.getter ↔ a.1.setter = q.getter :=
        ⟨place_inj hfirst hq, congrArg _⟩
      rw [List.map_cons, BitFields.lastOf, lastAssigned, ih hothers]
      simp only [hiff]

end DecodedInstruction

/-- **What properties read**: after any assignments to properties of a format,
each of them reads what was last assigned to its field, as much of it as the
field has bits, and what it read before if nothing was.  The field of `rd` in
the R format is assigned by none, that of `opcode` by two. -/
theorem properties_read (format : InstructionFormat) (inst : DecodedInstruction format)
    (as : List (Property × Word)) (has : ∀ a ∈ as, a.1 ∈ format.properties) (p : Property)
    (hp : p ∈ format.properties) :
    (inst.setProperties as).getProperty p =
      ((lastAssigned p.getter as).map fun v => DecodedInstruction.widen format p.getter
        (v.setWidth (format.place p.getter).width)).getD (inst.getProperty p) := by
  have hplaces := InstructionFormat.place_mem_places hp
  have hapart : ∀ a ∈ as.map fun a => (format.place a.1.setter, a.2),
      a.1 = format.place p.getter ∨ a.1.Apart (format.place p.getter) := by
    intro a ha
    obtain ⟨b, hb, rfl⟩ := List.mem_map.mp ha
    exact BitFields.eq_or_apart_of_mem_layout
      (InstructionFormat.place_mem_places (has b hb)).2 hplaces.1
  rw [DecodedInstruction.getProperty, DecodedInstruction.raw_setProperties,
    BitFields.get_assign (InstructionFormat.le_of_mem_places hplaces.1) hapart,
    DecodedInstruction.lastOf_place hp has]
  cases lastAssigned p.getter as <;> rfl

/-- -1 assigned to the immediate of an I instruction reads as -1, and the
opcode assigned before it as it was. -/
theorem properties_read_imm :
    ((⟨0⟩ : DecodedInstruction .iType).setProperties
      [(.of .opcode, 0x13), (.of .imm, -1)]).getProperty (.of .imm) = -1 :=
  properties_read .iType ⟨0⟩ _ (by decide) (.of .imm) (by decide)

end VirtuV
