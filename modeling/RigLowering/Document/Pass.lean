import RigLowering.Document.Graph
import RigLowering.Pass.Compilation

namespace RigLowering

open Json (text? flag? below? count? list? choice? record? optionalMember)

namespace Severity

def choices : List Severity := [.note, .warning, .error]

def toJson (severity : Severity) : Json := .text severity.label

def ofJson? : Json → Option Severity := choice? choices label

end Severity

namespace Diagnostic

def toJson (diagnostic : Diagnostic) : Json :=
  .object <|
    ("severity", diagnostic.severity.toJson) ::
      optionalMember "node" NodeId.toJson diagnostic.node ++
      [("message", .text diagnostic.message)]

def ofJson? (json : Json) : Option Diagnostic := do
  let record ← record? ["severity", "node", "message"] json
  let severity ← record.required "severity" Severity.ofJson?
  let node ← record.optional "node" NodeId.ofJson?
  let message ← record.required "message" text?
  return { severity, node, message }

end Diagnostic

namespace MessageLog

def toJson (log : MessageLog) : Json :=
  .object [("entries", .array (log.entries.map Diagnostic.toJson))]

def ofJson? (json : Json) : Option MessageLog := do
  let record ← record? ["entries"] json
  return ⟨← record.required "entries" (list? Diagnostic.ofJson?)⟩

end MessageLog

namespace PassStats

def toJson (stats : PassStats) : Json :=
  .object
    [("composite_nodes", .natural stats.composites), ("expanded", .natural stats.expanded),
      ("skipped", .natural stats.skipped), ("failed", .natural stats.failed),
      ("allocations", .natural stats.allocations),
      ("intermediate_nodes", .natural stats.intermediateNodes)]

def ofJson? (json : Json) : Option PassStats := do
  let record ← record?
    ["composite_nodes", "expanded", "skipped", "failed", "allocations", "intermediate_nodes"] json
  let composites ← record.required "composite_nodes" count?
  let expanded ← record.required "expanded" count?
  let skipped ← record.required "skipped" count?
  let failed ← record.required "failed" count?
  let allocations ← record.required "allocations" count?
  let intermediateNodes ← record.required "intermediate_nodes" count?
  return { composites, expanded, skipped, failed, allocations, intermediateNodes }

end PassStats

def allocationIndex? (json : Json) : Option UInt32 :=
  (below? UInt32.size json).map UInt32.ofNat

namespace PassOptions

def toJson (options : PassOptions) : Json :=
  .object
    [("full_compile", .bool options.fullCompile),
      ("allocation_base", .natural options.allocationBase.toNat),
      ("validate_graph", .bool options.audited)]

def ofJson? (json : Json) : Option PassOptions := do
  let record ← record? ["full_compile", "allocation_base", "validate_graph"] json
  let fullCompile ← record.defaulted "full_compile" standard.fullCompile flag?
  let allocationBase ← record.defaulted "allocation_base" standard.allocationBase allocationIndex?
  let audited ← record.defaulted "validate_graph" standard.audited flag?
  return { fullCompile, allocationBase, audited }

def ofText (text : String) : Except Error PassOptions :=
  Json.decodeText ofJson? text

end PassOptions

namespace Graph

/-- Compiles a graph as it was written. -/
def compileDocument (json : Json) (registry : RigRegistry) (runtime : RigRuntime)
    (options : PassOptions) : Except Error CompiledGraph :=
  match ofJson? json with
  | some graph => graph.compile registry runtime options
  | none => .error .malformedDocument

def compileText (text : String) (registry : RigRegistry) (runtime : RigRuntime)
    (options : PassOptions) : Except Error CompiledGraph :=
  match Json.parse? text with
  | some json => compileDocument json registry runtime options
  | none => .error .malformedDocument

end Graph

end RigLowering
