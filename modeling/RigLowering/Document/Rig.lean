import RigLowering.Document.Graph
import RigLowering.Rig.Registry
import RigLowering.Rig.Runtime

namespace RigLowering

open Json (text? list? choice? record? optionalMember)

namespace FieldKind

def choices : List FieldKind := [.scalar, .struct, .array, .delegate]

def code : FieldKind → String
  | .scalar => "scalar"
  | .struct => "struct"
  | .array => "array"
  | .delegate => "delegate"

def toJson (kind : FieldKind) : Json := .text kind.code

def ofJson? : Json → Option FieldKind := choice? choices code

end FieldKind

namespace Field

def toJson (field : Field) : Json :=
  .object
    [("name", .text field.name), ("pin_type", field.pinType.toJson),
      ("direction", field.direction.toJson), ("kind", field.kind.toJson)]

def ofJson? (json : Json) : Option Field := do
  let record ← record? ["name", "pin_type", "direction", "kind"] json
  let name ← record.required "name" text?
  let pinType ← record.required "pin_type" PinType.ofJson?
  let direction ← record.required "direction" PinDirection.ofJson?
  let kind ← record.required "kind" FieldKind.ofJson?
  return { name, pinType, direction, kind }

end Field

namespace RigClass

def toJson (rigClass : RigClass) : Json :=
  .object
    [("name", .text rigClass.name), ("parent", .text rigClass.parent),
      ("fields", .array (rigClass.fields.map Field.toJson))]

def ofJson? (json : Json) : Option RigClass := do
  let record ← record? ["name", "parent", "fields"] json
  let name ← record.required "name" text?
  let parent ← record.required "parent" text?
  let fields ← record.defaulted "fields" [] (list? Field.ofJson?)
  return { name, parent, fields }

end RigClass

namespace FunctionParameter

def toJson (parameter : FunctionParameter) : Json :=
  .object [("name", .text parameter.name), ("pin_type", parameter.pinType.toJson)]

def ofJson? (json : Json) : Option FunctionParameter := do
  let record ← record? ["name", "pin_type"] json
  let name ← record.required "name" text?
  let pinType ← record.required "pin_type" PinType.ofJson?
  return { name, pinType }

end FunctionParameter

namespace FunctionSignature

def toJson (function : FunctionSignature) : Json :=
  .object <|
    [("name", .text function.name),
      ("params", .array (function.parameters.map FunctionParameter.toJson))] ++
      optionalMember "return_type" PinType.toJson function.returnType

def ofJson? (json : Json) : Option FunctionSignature := do
  let record ← record? ["name", "params", "return_type"] json
  let name ← record.required "name" text?
  let parameters ← record.defaulted "params" [] (list? FunctionParameter.ofJson?)
  let returnType ← record.optional "return_type" PinType.ofJson?
  return { name, parameters, returnType }

end FunctionSignature

namespace RuntimeTable

def toJson (table : RuntimeTable) : Json :=
  .object
    [("base_class", .text table.base),
      ("functions", .array (table.functions.map FunctionSignature.toJson)),
      ("delegates", .array (table.delegates.map Json.text))]

def ofJson? (json : Json) : Option RuntimeTable := do
  let record ← record? ["base_class", "functions", "delegates"] json
  let base ← record.required "base_class" text?
  let functions ← record.defaulted "functions" [] (list? FunctionSignature.ofJson?)
  let delegates ← record.defaulted "delegates" [] (list? text?)
  return { base, functions, delegates }

end RuntimeTable

namespace RigRuntime

def ofText (text : String) : Except Error RigRuntime := do
  ofTable (← Json.decodeText RuntimeTable.ofJson? text)

end RigRuntime

end RigLowering
