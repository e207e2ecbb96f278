import Mathlib.Tactic.MkIffOfInductiveProp
import RigLowering.Document.Pass
import RigLowering.Document.Rig
import RigLowering.Proofs.NameListing
import RigLowering.Proofs.ReadBack

namespace RigLowering

open Json (Printable optionalMember)

variable {room : Nat}

/-! The reader of each record undoes its writer, and what is written has a text.  An optional member
is there or not, so the proofs go by the optional values of a record. -/

namespace PinCategory

@[simp] theorem ofJson?_toJson (category : PinCategory) :
    ofJson? category.toJson = some category := by
  cases category <;> rfl

theorem printable (category : PinCategory) : Printable room category.toJson :=
  .text _

end PinCategory

namespace ContainerShape

@[simp] theorem ofJson?_toJson (shape : ContainerShape) : ofJson? shape.toJson = some shape := by
  cases shape <;> rfl

theorem printable (shape : ContainerShape) : Printable room shape.toJson :=
  .text _

end ContainerShape

namespace PinType

@[simp] theorem ofJson?_toJson (pinType : PinType) : ofJson? pinType.toJson = some pinType := by
  obtain ⟨category, referent, container⟩ := pinType
  cases referent <;> simp [ofJson?, toJson, optionalMember]

theorem printable (pinType : PinType) : Printable (room + 1) pinType.toJson := by
  apply Printable.object
  obtain ⟨category, referent, container⟩ := pinType
  cases referent <;> simp [optionalMember, category.printable, container.printable, Printable.text]

@[simp] theorem toJson_ne_null (pinType : PinType) : pinType.toJson ≠ .null := by
  simp [toJson]

end PinType

namespace PinDirection

@[simp] theorem ofJson?_toJson (direction : PinDirection) :
    ofJson? direction.toJson = some direction := by
  cases direction <;> rfl

theorem printable (direction : PinDirection) : Printable room direction.toJson :=
  .text _

end PinDirection

namespace NodeId

def Storable (node : NodeId) : Prop :=
  node.index < UInt64.size
  deriving Decidable

variable {node : NodeId}

@[simp] theorem Storable.ofJson?_toJson (storable : node.Storable) :
    ofJson? node.toJson = some node := by
  simp [ofJson?, toJson, Json.count?, Json.below?_natural storable]

theorem Storable.printable (storable : node.Storable) : Printable room node.toJson :=
  .natural storable

@[simp] theorem toJson_ne_null (node : NodeId) : node.toJson ≠ .null := by
  simp [toJson]

end NodeId

namespace PinId

def Storable (pin : PinId) : Prop :=
  pin.index < UInt64.size
  deriving Decidable

variable {pin : PinId}

@[simp] theorem Storable.ofJson?_toJson (storable : pin.Storable) :
    ofJson? pin.toJson = some pin := by
  simp [ofJson?, toJson, Json.count?, Json.below?_natural storable]

theorem Storable.printable (storable : pin.Storable) : Printable room pin.toJson :=
  .natural storable

end PinId

namespace Pin

@[mk_iff] structure Storable (pin : Pin) : Prop where
  id : pin.id.Storable
  owner : pin.owner.Storable
  links : ∀ far ∈ pin.links, far.Storable

instance (pin : Pin) : Decidable pin.Storable :=
  decidable_of_iff _ (storable_iff pin).symm

variable {pin : Pin}

@[simp] theorem Storable.ofJson?_toJson (storable : pin.Storable) :
    ofJson? pin.toJson = some pin := by
  obtain ⟨idStorable, ownerStorable, linksStorable⟩ := storable
  have links := Json.list?_map fun far listed => (linksStorable far listed).ofJson?_toJson
  obtain ⟨id, owner, name, direction, pinType, defaultValue, defaultObject, _⟩ := pin
  cases defaultValue <;> cases defaultObject <;>
    simp [ofJson?, toJson, optionalMember, idStorable.ofJson?_toJson,
      ownerStorable.ofJson?_toJson, links]

theorem Storable.printable (storable : pin.Storable) : Printable (room + 2) pin.toJson := by
  apply Printable.object
  have links : Printable (room + 1) _ :=
    .list fun far listed => (storable.links far listed).printable
  obtain ⟨id, owner, name, direction, pinType, defaultValue, defaultObject, _⟩ := pin
  cases defaultValue <;> cases defaultObject <;>
    simp [optionalMember, storable.id.printable, storable.owner.printable, direction.printable,
      pinType.printable, Printable.text, links]

@[simp] theorem toJson_ne_null (pin : Pin) : pin.toJson ≠ .null := by
  simp [toJson]

end Pin

namespace NameSet

@[simp] theorem ofJson?_toJson (names : NameSet) : ofJson? names.toJson = some names := by
  rw [ofJson?, toJson, Json.list?_text, Option.map_some, ofNames_names]

theorem printable (names : NameSet) : Printable (room + 1) names.toJson :=
  .list fun name _ => .text name

end NameSet

namespace EvaluatorSettings

@[simp] theorem ofJson?_toJson (settings : EvaluatorSettings) :
    ofJson? settings.toJson = some settings := by
  have rigType : Json.nullable? Json.text? (Json.ofOption Json.text settings.rigType) =
      some settings.rigType :=
    Json.nullable?_ofOption (fun rigType _ => Json.text?_text rigType) (by simp)
  simp [ofJson?, toJson, members, rigType]

theorem printable_members (settings : EvaluatorSettings) :
    ∀ member ∈ settings.members, Printable (room + 1) member.2 := by
  have rigType : Printable (room + 1) (Json.ofOption Json.text settings.rigType) :=
    .ofOption fun rigType _ => .text rigType
  simp [members, rigType, NameSet.printable, Printable.bool]

theorem printable (settings : EvaluatorSettings) : Printable (room + 2) settings.toJson :=
  .object settings.printable_members

end EvaluatorSettings

namespace NodeKind

theorem printable (kind : NodeKind) : Printable (room + 2) kind.toJson := by
  apply Printable.object
  cases kind with
  | evaluator settings => exact List.forall_mem_cons.mpr ⟨.text _, settings.printable_members⟩
  | _ => simp [members, Printable.text, Printable.bool]

theorem ofTag?_members (kind : NodeKind) : ofTag? kind.tag (.object kind.members) = some kind := by
  cases kind with
  | evaluator settings =>
      rw [tag, ofTag?]
      exact congrArg (Option.map evaluator) settings.ofJson?_toJson
  | _ => simp [tag, ofTag?, members, ownedProperty?]

theorem member_ne_type (kind : NodeKind) : ∀ member ∈ kind.members, member.1 ≠ "type" := by
  cases kind <;> simp [members, EvaluatorSettings.members]

@[simp] theorem ofJson?_toJson (kind : NodeKind) : ofJson? kind.toJson = some kind := by
  have readable : kind.toJson.isReadable := (@printable 0 kind).isReadable
  have noTag : kind.members.filter (·.1 == "type") = [] :=
    List.filter_eq_nil_iff.mpr (by simpa using kind.member_ne_type)
  have others : kind.members.filter (·.1 != "type") = kind.members :=
    List.filter_eq_self.mpr (by simpa using kind.member_ne_type)
  rw [ofJson?, if_pos readable, toJson, ofTagged?]
  simp [noTag, others, ofTag?_members]

end NodeKind

namespace Node

@[mk_iff] structure Storable (node : Node) : Prop where
  id : node.id.Storable
  pins : ∀ pin ∈ node.pins, pin.Storable
  spawnedBy : ∀ source ∈ node.spawnedBy, source.Storable

instance (node : Node) : Decidable node.Storable :=
  decidable_of_iff _ (storable_iff node).symm

variable {node : Node}

@[simp] theorem Storable.ofJson?_toJson (storable : node.Storable) :
    ofJson? node.toJson = some node := by
  obtain ⟨idStorable, pinsStorable, sourceStorable⟩ := storable
  have pins := Json.list?_map fun pin listed => (pinsStorable pin listed).ofJson?_toJson
  obtain ⟨id, kind, _, spawnedBy⟩ := node
  cases spawnedBy with
  | none => simp [ofJson?, toJson, optionalMember, idStorable.ofJson?_toJson, pins]
  | some source =>
      simp [ofJson?, toJson, optionalMember, idStorable.ofJson?_toJson, pins,
        (sourceStorable source rfl).ofJson?_toJson]

theorem Storable.printable (storable : node.Storable) : Printable (room + 3) node.toJson := by
  apply Printable.object
  obtain ⟨idStorable, pinsStorable, sourceStorable⟩ := storable
  have pins : Printable (room + 2) _ := .list fun pin listed => (pinsStorable pin listed).printable
  obtain ⟨id, kind, _, spawnedBy⟩ := node
  cases spawnedBy with
  | none => simp [optionalMember, idStorable.printable, kind.printable, pins]
  | some source =>
      simp [optionalMember, idStorable.printable, kind.printable, pins,
        (sourceStorable source rfl).printable]

end Node

namespace FieldKind

@[simp] theorem ofJson?_toJson (kind : FieldKind) : ofJson? kind.toJson = some kind := by
  cases kind <;> rfl

theorem printable (kind : FieldKind) : Printable room kind.toJson :=
  .text _

end FieldKind

namespace Field

@[simp] theorem ofJson?_toJson (field : Field) : ofJson? field.toJson = some field := by
  simp [ofJson?, toJson]

theorem printable (field : Field) : Printable (room + 2) field.toJson := by
  apply Printable.object
  simp [Printable.text, field.pinType.printable, field.direction.printable, field.kind.printable]

end Field

namespace RigClass

@[simp] theorem ofJson?_toJson (rigClass : RigClass) : ofJson? rigClass.toJson = some rigClass := by
  simp [ofJson?, toJson]

theorem printable (rigClass : RigClass) : Printable (room + 4) rigClass.toJson := by
  apply Printable.object
  have fields : Printable (room + 3) _ :=
    .list fun field (_ : field ∈ rigClass.fields) => field.printable
  simp [Printable.text, fields]

end RigClass

namespace FunctionParameter

@[simp] theorem ofJson?_toJson (parameter : FunctionParameter) :
    ofJson? parameter.toJson = some parameter := by
  simp [ofJson?, toJson]

theorem printable (parameter : FunctionParameter) : Printable (room + 2) parameter.toJson := by
  apply Printable.object
  simp [Printable.text, parameter.pinType.printable]

end FunctionParameter

namespace FunctionSignature

@[simp] theorem ofJson?_toJson (function : FunctionSignature) :
    ofJson? function.toJson = some function := by
  obtain ⟨name, parameters, returnType⟩ := function
  cases returnType <;> simp [ofJson?, toJson, optionalMember]

theorem printable (function : FunctionSignature) : Printable (room + 4) function.toJson := by
  apply Printable.object
  obtain ⟨name, parameters, returnType⟩ := function
  have parameters : Printable (room + 3) _ :=
    .list fun parameter (_ : parameter ∈ parameters) => parameter.printable
  cases returnType <;> simp [optionalMember, Printable.text, parameters, PinType.printable]

end FunctionSignature

namespace RuntimeTable

@[simp] theorem ofJson?_toJson (table : RuntimeTable) : ofJson? table.toJson = some table := by
  simp [ofJson?, toJson]

theorem printable (table : RuntimeTable) : Printable (room + 6) table.toJson := by
  apply Printable.object
  have functions : Printable (room + 5) _ :=
    .list fun function (_ : function ∈ table.functions) => function.printable
  have delegates : Printable (room + 5) _ :=
    .list fun name (_ : name ∈ table.delegates) => .text name
  simp [Printable.text, functions, delegates]

end RuntimeTable

namespace Severity

@[simp] theorem ofJson?_toJson (severity : Severity) : ofJson? severity.toJson = some severity := by
  cases severity <;> rfl

theorem printable (severity : Severity) : Printable room severity.toJson :=
  .text _

end Severity

namespace Diagnostic

def Storable (diagnostic : Diagnostic) : Prop :=
  ∀ node ∈ diagnostic.node, node.Storable
  deriving Decidable

variable {diagnostic : Diagnostic}

@[simp] theorem Storable.ofJson?_toJson (storable : diagnostic.Storable) :
    ofJson? diagnostic.toJson = some diagnostic := by
  obtain ⟨severity, node, message⟩ := diagnostic
  cases node with
  | none => simp [ofJson?, toJson, optionalMember]
  | some node => simp [ofJson?, toJson, optionalMember, (storable node rfl).ofJson?_toJson]

theorem Storable.printable (storable : diagnostic.Storable) :
    Printable (room + 1) diagnostic.toJson := by
  apply Printable.object
  obtain ⟨severity, node, message⟩ := diagnostic
  cases node with
  | none => simp [optionalMember, severity.printable, Printable.text]
  | some node =>
      simp [optionalMember, severity.printable, Printable.text, (storable node rfl).printable]

end Diagnostic

namespace MessageLog

def Storable (log : MessageLog) : Prop :=
  ∀ diagnostic ∈ log.entries, diagnostic.Storable
  deriving Decidable

variable {log : MessageLog}

@[simp] theorem Storable.ofJson?_toJson (storable : log.Storable) :
    ofJson? log.toJson = some log := by
  have entries := Json.list?_map fun diagnostic listed =>
    (storable diagnostic listed).ofJson?_toJson
  simp [ofJson?, toJson, entries]

theorem Storable.printable (storable : log.Storable) : Printable (room + 3) log.toJson := by
  apply Printable.object
  have entries : Printable (room + 2) _ :=
    .list fun diagnostic listed => (storable diagnostic listed).printable
  simp [entries]

end MessageLog

namespace PassStats

@[mk_iff] structure Storable (stats : PassStats) : Prop where
  composites : stats.composites < UInt64.size
  expanded : stats.expanded < UInt64.size
  skipped : stats.skipped < UInt64.size
  failed : stats.failed < UInt64.size
  allocations : stats.allocations < UInt64.size
  intermediateNodes : stats.intermediateNodes < UInt64.size

instance (stats : PassStats) : Decidable stats.Storable :=
  decidable_of_iff _ (storable_iff stats).symm

variable {stats : PassStats}

@[simp] theorem Storable.ofJson?_toJson (storable : stats.Storable) :
    ofJson? stats.toJson = some stats := by
  obtain ⟨composites, expanded, skipped, failed, allocations, intermediateNodes⟩ := storable
  simp [ofJson?, toJson, Json.count?, *]

theorem Storable.printable (storable : stats.Storable) : Printable (room + 1) stats.toJson := by
  apply Printable.object
  obtain ⟨composites, expanded, skipped, failed, allocations, intermediateNodes⟩ := storable
  simp [Printable.natural, *]

end PassStats

namespace PassOptions

theorem allocationIndex?_toNat (index : UInt32) :
    allocationIndex? (.natural index.toNat) = some index := by
  rw [allocationIndex?, Json.below?_natural index.toNat_lt_size, Option.map_some,
    UInt32.ofNat_toNat]

@[simp] theorem ofJson?_toJson (options : PassOptions) : ofJson? options.toJson = some options := by
  simp [ofJson?, toJson, allocationIndex?_toNat]

theorem printable (options : PassOptions) : Printable (room + 1) options.toJson := by
  apply Printable.object
  have base : options.allocationBase.toNat < UInt64.size :=
    Nat.lt_trans options.allocationBase.toNat_lt_size (by decide)
  simp [Printable.bool, Printable.natural base]

end PassOptions

end RigLowering
