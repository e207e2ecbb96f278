import RigLowering.Json.Record
import RigLowering.Node

namespace RigLowering

open Json (text? flag? count? list? choice? record? optionalMember ofOption)

namespace PinCategory

def choices : List PinCategory :=
  [.exec, .boolean, .int, .float, .string, .name, .struct, .object, .classRef, .delegate,
    .wildcard]

def code : PinCategory → String
  | .boolean => "boolean"
  | category => category.display

def toJson (category : PinCategory) : Json := .text category.code

def ofJson? : Json → Option PinCategory := choice? choices code

end PinCategory

namespace ContainerShape

def choices : List ContainerShape := [.single, .array, .set, .map]

def code : ContainerShape → String
  | .single => "none"
  | .array => "array"
  | .set => "set"
  | .map => "map"

def toJson (shape : ContainerShape) : Json := .text shape.code

def ofJson? : Json → Option ContainerShape := choice? choices code

end ContainerShape

namespace PinType

def toJson (pinType : PinType) : Json :=
  .object <|
    ("category", pinType.category.toJson) ::
      optionalMember "sub_object" Json.text pinType.referent ++
      [("container", pinType.container.toJson)]

def ofJson? (json : Json) : Option PinType := do
  let record ← record? ["category", "sub_object", "container"] json
  let category ← record.required "category" PinCategory.ofJson?
  let referent ← record.optional "sub_object" text?
  let container ← record.defaulted "container" .single ContainerShape.ofJson?
  return { category, referent, container }

end PinType

namespace PinDirection

def choices : List PinDirection := [.input, .output]

def code : PinDirection → String
  | .input => "input"
  | .output => "output"

def toJson (direction : PinDirection) : Json := .text direction.code

def ofJson? : Json → Option PinDirection := choice? choices code

end PinDirection

namespace NodeId

def toJson (node : NodeId) : Json := .natural node.index

def ofJson? (json : Json) : Option NodeId := (count? json).map NodeId.mk

end NodeId

namespace PinId

def toJson (pin : PinId) : Json := .natural pin.index

def ofJson? (json : Json) : Option PinId := (count? json).map PinId.mk

end PinId

namespace Pin

def toJson (pin : Pin) : Json :=
  .object <|
    [("id", pin.id.toJson), ("owner", pin.owner.toJson), ("name", .text pin.name),
      ("direction", pin.direction.toJson), ("pin_type", pin.pinType.toJson)] ++
      optionalMember "default_value" Json.text pin.defaultValue ++
      optionalMember "default_object" Json.text pin.defaultObject ++
      [("linked_to", .array (pin.links.map PinId.toJson))]

def ofJson? (json : Json) : Option Pin := do
  let record ← record?
    ["id", "owner", "name", "direction", "pin_type", "default_value", "default_object",
      "linked_to"] json
  let id ← record.required "id" PinId.ofJson?
  let owner ← record.required "owner" NodeId.ofJson?
  let name ← record.required "name" text?
  let direction ← record.required "direction" PinDirection.ofJson?
  let pinType ← record.required "pin_type" PinType.ofJson?
  let defaultValue ← record.optional "default_value" text?
  let defaultObject ← record.optional "default_object" text?
  let links ← record.defaulted "linked_to" [] (list? PinId.ofJson?)
  return { id, owner, name, direction, pinType, defaultValue, defaultObject, links }

end Pin

namespace NameSet

def toJson (names : NameSet) : Json := .array (names.names.map Json.text)

def ofJson? (json : Json) : Option NameSet := (list? text? json).map NameSet.ofNames

end NameSet

namespace EvaluatorSettings

def members (settings : EvaluatorSettings) : List (String × Json) :=
  [("rig_type", ofOption Json.text settings.rigType),
    ("disabled_inputs", NameSet.toJson settings.disabledInputs),
    ("disabled_outputs", NameSet.toJson settings.disabledOutputs),
    ("inert", .bool settings.inert)]

def toJson (settings : EvaluatorSettings) : Json := .object settings.members

def ofJson? (json : Json) : Option EvaluatorSettings := do
  let record ← record? ["rig_type", "disabled_inputs", "disabled_outputs", "inert"] json
  let rigType ← record.optional "rig_type" text?
  let disabledInputs ← record.defaulted "disabled_inputs" .empty NameSet.ofJson?
  let disabledOutputs ← record.defaulted "disabled_outputs" .empty NameSet.ofJson?
  let inert ← record.defaulted "inert" false flag?
  return { rigType, disabledInputs, disabledOutputs, inert }

end EvaluatorSettings

/-! The kind of a node is told by the member `type`, and its other members depend on the kind. -/

namespace NodeKind

def tag : NodeKind → String
  | .evaluator _ => "rig_evaluator"
  | .call .. => "call_function"
  | .cast .. => "dynamic_cast"
  | .event .. => "event"
  | .getField .. => "variable_get"
  | .setField .. => "variable_set"
  | .copy => "copy"
  | .bindField .. => "add_delegate"
  | .primitive _ => "primitive"

def members : NodeKind → List (String × Json)
  | .evaluator settings => settings.members
  | .call function isPure => [("function", .text function), ("is_pure", .bool isPure)]
  | .cast target isPure => [("target_type", .text target), ("is_pure", .bool isPure)]
  | .event signature functionName =>
      [("delegate_signature", .text signature), ("function_name", .text functionName)]
  | .getField owner property => [("owner", .text owner), ("property", .text property)]
  | .setField owner property => [("owner", .text owner), ("property", .text property)]
  | .copy => []
  | .bindField owner property => [("owner", .text owner), ("property", .text property)]
  | .primitive name => [("name", .text name)]

def toJson (kind : NodeKind) : Json :=
  .object (("type", .text kind.tag) :: kind.members)

def ownedProperty? (make : String → String → NodeKind) (json : Json) : Option NodeKind := do
  let record ← record? ["owner", "property"] json
  return make (← record.required "owner" text?) (← record.required "property" text?)

def ofTag? (tag : String) (json : Json) : Option NodeKind :=
  match tag with
  | "rig_evaluator" => (EvaluatorSettings.ofJson? json).map evaluator
  | "call_function" => do
      let record ← record? ["function", "is_pure"] json
      return call (← record.required "function" text?) (← record.required "is_pure" flag?)
  | "dynamic_cast" => do
      let record ← record? ["target_type", "is_pure"] json
      return cast (← record.required "target_type" text?) (← record.required "is_pure" flag?)
  | "event" => do
      let record ← record? ["delegate_signature", "function_name"] json
      return event (← record.required "delegate_signature" text?)
        (← record.required "function_name" text?)
  | "variable_get" => ownedProperty? getField json
  | "variable_set" => ownedProperty? setField json
  | "copy" => (record? [] json).map fun _ => copy
  | "add_delegate" => ownedProperty? bindField json
  | "primitive" => do
      let record ← record? ["name"] json
      return primitive (← record.required "name" text?)
  | _ => none

/-- The tag is one member among the others, or the first element of an array. -/
def ofTagged? : Json → Option NodeKind
  | .object members =>
      match members.filter (·.1 == "type") with
      | [(_, .text tag)] => ofTag? tag (.object (members.filter (·.1 != "type")))
      | _ => none
  | .array (.text tag :: rest) => ofTag? tag (.array rest)
  | _ => none

/-- The whole value is looked at before its tag is known, the members that are passed over too. -/
def ofJson? (json : Json) : Option NodeKind :=
  if json.isReadable then ofTagged? json else none

end NodeKind

namespace Node

def toJson (node : Node) : Json :=
  .object <|
    [("id", node.id.toJson), ("kind", node.kind.toJson),
      ("pins", .array (node.pins.map PinId.toJson))] ++
      optionalMember "spawned_by" NodeId.toJson node.spawnedBy

def ofJson? (json : Json) : Option Node := do
  let record ← record? ["id", "kind", "pins", "spawned_by"] json
  let id ← record.required "id" NodeId.ofJson?
  let kind ← record.required "kind" NodeKind.ofJson?
  let pins ← record.defaulted "pins" [] (list? PinId.ofJson?)
  let spawnedBy ← record.optional "spawned_by" NodeId.ofJson?
  return { id, kind, pins, spawnedBy }

end Node

end RigLowering
