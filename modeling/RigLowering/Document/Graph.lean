import RigLowering.Document.Node
import RigLowering.Graph.Basic
import RigLowering.Json.Printer
import RigLowering.Json.Reader

namespace RigLowering

open Json (text? list? nullable? record? optionalMember ofOption)

namespace ClassHierarchy

def toJson (hierarchy : ClassHierarchy) : Json :=
  .object
    [("parents", .object (hierarchy.parents.entries.map fun entry => (entry.1, .text entry.2)))]

def parentsOfJson? : Json → Option (NameMap String)
  | .object members => do
      return .ofList (← members.mapM fun member => return (member.1, ← text? member.2))
  | _ => none

def ofJson? (json : Json) : Option ClassHierarchy := do
  let record ← record? ["parents"] json
  return ⟨← record.required "parents" parentsOfJson?⟩

end ClassHierarchy

/-! A written graph says nothing of an open checkpoint. -/

namespace Graph

def toJson (graph : Graph) : Json :=
  .object <|
    ("name", .text graph.name) ::
      optionalMember "parent_class" Json.text graph.parentClass ++
      [("nodes", .array (graph.nodes.toList.map Node.toJson)),
        ("pins", .array (graph.pins.toList.map (ofOption Pin.toJson))),
        ("hierarchy", graph.hierarchy.toJson)]

def ofJson? (json : Json) : Option Graph := do
  let record ← record? ["name", "parent_class", "nodes", "pins", "hierarchy"] json
  let name ← record.required "name" text?
  let parentClass ← record.optional "parent_class" text?
  let nodes ← record.defaulted "nodes" [] (list? Node.ofJson?)
  let pins ← record.defaulted "pins" [] (list? (nullable? Pin.ofJson?))
  let hierarchy ← record.defaulted "hierarchy" .empty ClassHierarchy.ofJson?
  return ⟨name, parentClass, nodes.toArray, pins.toArray, hierarchy, none⟩

def toText (graph : Graph) : String :=
  graph.toJson.indented 0

end Graph

namespace Json

def decodeText {α : Type} (decode : Json → Option α) (text : String) : Except Error α :=
  match (parse? text).bind decode with
  | some value => .ok value
  | none => .error .malformedDocument

end Json

def Graph.ofText (text : String) : Except Error Graph :=
  Json.decodeText Graph.ofJson? text

end RigLowering
