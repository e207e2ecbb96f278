import RigLowering.Pass.State
import RigLowering.Rig.Runtime

namespace RigLowering

namespace PrimitivePins

def execution : List PinSpec :=
  [⟨.input, .exec, PinName.execute⟩, ⟨.output, .exec, PinName.continuation⟩]

/-- A pure call is not part of the order of execution. -/
def call (function : FunctionSignature) (isPure : Bool) : List PinSpec :=
  (if isPure then [] else execution) ++
    function.parameters.map (fun parameter => ⟨.input, parameter.pinType, parameter.name⟩) ++
    (function.returnType.map fun pinType => ⟨.output, pinType, PinName.returnValue⟩).toList

/-- A pure cast tells of its failure by a value, any other by where execution goes on. -/
def cast (target : String) (isPure : Bool) : List PinSpec :=
  if isPure then
    [⟨.input, .anyObject, PinName.castSource⟩,
      ⟨.output, .object target, PinName.castResult target⟩,
      ⟨.output, .boolean, PinName.castSuccess⟩]
  else
    execution ++
      [⟨.output, .exec, PinName.castFailed⟩,
        ⟨.input, .anyObject, PinName.castSource⟩,
        ⟨.output, .object target, PinName.castResult target⟩]

def event (signature : String) : List PinSpec :=
  [⟨.output, .exec, PinName.continuation⟩,
    ⟨.output, .delegate signature, PinName.outputDelegate⟩]

def setField (owner : String) (field : Field) : List PinSpec :=
  execution ++ [⟨.input, .object owner, PinName.self⟩, ⟨.input, field.pinType, field.name⟩]

def getField (owner : String) (field : Field) : List PinSpec :=
  [⟨.input, .object owner, PinName.self⟩, ⟨.output, field.pinType, field.name⟩]

def bindField (owner : String) (field : Field) : List PinSpec :=
  execution ++ [⟨.input, .object owner, PinName.self⟩, ⟨.input, field.pinType, PinName.delegate⟩]

def copy (pinType : PinType) : List PinSpec :=
  [⟨.input, pinType, PinName.item⟩, ⟨.output, pinType, PinName.returnValue⟩]

end PrimitivePins

namespace Pass

def spawn (kind : NodeKind) (pins : List PinSpec) (source : NodeId) : Pass NodeId := do
  let node ← spawnNode kind source
  edit (.layPins node pins)
  return node

def spawnCall (source : NodeId) (function : FunctionSignature) (isPure : Bool) : Pass NodeId :=
  spawn (.call function.name isPure) (PrimitivePins.call function isPure) source

def spawnCast (source : NodeId) (target : String) (isPure : Bool) : Pass NodeId :=
  spawn (.cast target isPure) (PrimitivePins.cast target isPure) source

def spawnEvent (source : NodeId) (signature base : String) : Pass NodeId := do
  let node ← spawnEventNode signature base source
  edit (.layPins node (PrimitivePins.event signature))
  return node

def spawnSetField (source : NodeId) (owner : String) (field : Field) : Pass NodeId :=
  spawn (.setField owner field.name) (PrimitivePins.setField owner field) source

def spawnGetField (source : NodeId) (owner : String) (field : Field) : Pass NodeId :=
  spawn (.getField owner field.name) (PrimitivePins.getField owner field) source

def spawnBindField (source : NodeId) (owner : String) (field : Field) : Pass NodeId :=
  spawn (.bindField owner field.name) (PrimitivePins.bindField owner field) source

/-- A copy keeps two owners of a struct or an array apart. -/
def spawnCopy (source : NodeId) (pinType : PinType) : Pass NodeId :=
  spawn .copy (PrimitivePins.copy pinType) source

end Pass

namespace Graph

def castSource (graph : Graph) (cast : NodeId) : Except Error PinId :=
  graph.findPin cast PinName.castSource (some .input)

def castResult (graph : Graph) (cast : NodeId) : Except Error PinId := do
  match (← graph.node cast).kind with
  | .cast target _ => graph.findPin cast (PinName.castResult target) (some .output)
  | kind => throw (.notACast cast kind)

end Graph

end RigLowering
