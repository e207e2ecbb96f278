import RigLowering.Pin

namespace RigLowering

/-- What the author of a graph has chosen for a rig evaluator.  An inert evaluator has been
expanded and is only a placeholder. -/
structure EvaluatorSettings where
  rigType : Option String
  disabledInputs : NameSet
  disabledOutputs : NameSet
  inert : Bool
  deriving DecidableEq

namespace EvaluatorSettings

def unset : EvaluatorSettings := ⟨none, .empty, .empty, false⟩

def disabled (settings : EvaluatorSettings) : PinDirection → NameSet
  | .input => settings.disabledInputs
  | .output => settings.disabledOutputs

def setDisabled (settings : EvaluatorSettings) (direction : PinDirection) (names : NameSet) :
    EvaluatorSettings :=
  match direction with
  | .input => { settings with disabledInputs := names }
  | .output => { settings with disabledOutputs := names }

/-- The disabled names belong to the former rig type and go with it. -/
def bindTo (settings : EvaluatorSettings) (rigType : Option String) : EvaluatorSettings :=
  { settings with rigType, disabledInputs := .empty, disabledOutputs := .empty }

def markInert (settings : EvaluatorSettings) : EvaluatorSettings :=
  { settings with inert := true }

end EvaluatorSettings

inductive NodeKind
  | evaluator (settings : EvaluatorSettings)
  | call (function : String) (isPure : Bool)
  | cast (target : String) (isPure : Bool)
  | event (signature functionName : String)
  | getField (owner property : String)
  | setField (owner property : String)
  | copy
  | bindField (owner property : String)
  | primitive (name : String)
  deriving DecidableEq

namespace NodeKind

def settings? : NodeKind → Option EvaluatorSettings
  | .evaluator settings => some settings
  | _ => none

def isComposite (kind : NodeKind) : Bool :=
  kind.settings?.isSome

/-- Only an evaluator has settings to change. -/
def mapSettings (change : EvaluatorSettings → EvaluatorSettings) : NodeKind → NodeKind
  | .evaluator settings => .evaluator (change settings)
  | kind => kind

def functionName? : NodeKind → Option String
  | .event _ functionName => some functionName
  | _ => none

def label : NodeKind → String
  | .evaluator settings => "evaluate " ++ settings.rigType.getD "<unset>"
  | .call function _ => "call " ++ function
  | .cast target _ => "cast to " ++ target
  | .event _ functionName => "event " ++ functionName
  | .getField _ property => "get " ++ property
  | .setField _ property => "set " ++ property
  | .copy => "copy"
  | .bindField _ property => "bind " ++ property
  | .primitive name => name

end NodeKind

structure Node where
  id : NodeId
  kind : NodeKind
  pins : List PinId
  spawnedBy : Option NodeId
  deriving DecidableEq

namespace Node

def listPin (node : Node) (pin : PinId) : Node :=
  { node with pins := node.pins ++ [pin] }

def unlistPin (node : Node) (pin : PinId) : Node :=
  { node with pins := node.pins.filter (· ≠ pin) }

def mapSettings (change : EvaluatorSettings → EvaluatorSettings) (node : Node) : Node :=
  { node with kind := node.kind.mapSettings change }

end Node

end RigLowering
