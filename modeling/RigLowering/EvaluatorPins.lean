import RigLowering.Graph.Links
import RigLowering.Rig.Registry

namespace RigLowering

namespace RigRegistry

/-- The class that the settings name, if it is registered. -/
def rigType? (registry : RigRegistry) (settings : EvaluatorSettings) : Option String :=
  settings.rigType.filter registry.contains

def fieldPins (registry : RigRegistry) (rigType : String) (direction : PinDirection)
    (disabled : NameSet) : List PinSpec :=
  (registry.enabledFields rigType direction disabled).map
    fun field => ⟨direction, field.pinType, field.name⟩

/-- The pins of an evaluator follow from its settings: the enabled input fields, the sub-rig, and
the enabled output fields. -/
def evaluatorPins (registry : RigRegistry) (settings : EvaluatorSettings) : List PinSpec :=
  match registry.rigType? settings with
  | none => []
  | some rigType =>
      registry.fieldPins rigType .input settings.disabledInputs ++
        [⟨.output, .object rigType, PinName.rig⟩] ++
        registry.fieldPins rigType .output settings.disabledOutputs

end RigRegistry

namespace Edit

def layPin (node : NodeId) (spec : PinSpec) : Edit PinId := do
  let pin ← addPin node spec.direction spec.pinType spec.name
  modifyPin pin (·.withDefaultLiteral)
  return pin

def layPins (node : NodeId) (specs : List PinSpec) : Edit Unit :=
  specs.forM fun spec => discard (layPin node spec)

def layEvaluatorPins (registry : RigRegistry) (node : NodeId) : Edit Unit := do
  layPins node (registry.evaluatorPins (← query (·.settings node)))

def spawnEvaluator (registry : RigRegistry) (rigType : Option String) : Edit NodeId := do
  let node ← addNode (.evaluator { EvaluatorSettings.unset with rigType })
  layEvaluatorPins registry node
  return node

/-! Rebuilding makes the pins of an evaluator anew and gives them what the old pins of the
same name and direction had, as far as it still fits. -/

/-- The pins as each stood when its turn came. -/
def takePins (pins : List PinId) : Edit (List Pin) :=
  pins.mapM fun id => do
    let old ← pin id
    removePin id
    return old

/-- How many links were lost: none or this one. -/
def relink (new far : PinId) : Edit Nat :=
  tryCatch (do link new far; pure 0) fun error =>
    if error.isRecoverable then pure 1 else throw error

def restoreLiteral (new : PinId) (old : Pin) : Edit Unit := do
  if old.direction = .input ∧ (← pin new).pinType = old.pinType ∧ old.defaultValue.isSome then
    modifyPin new fun pin => { pin with defaultValue := old.defaultValue }

def restorePin (node : NodeId) (old : Pin) : Edit Nat := do
  match ← query (·.findPin? node old.name (some old.direction)) with
  | none => return old.links.length
  | some new =>
      restoreLiteral new old
      return Graph.total (← old.links.mapM (relink new))

/-- How many links were lost. -/
def rebuild (registry : RigRegistry) (node : NodeId) : Edit Nat := do
  let old ← takePins (← Edit.node node).pins
  layEvaluatorPins registry node
  return Graph.total (← old.mapM (restorePin node))

def bindRigType (registry : RigRegistry) (node : NodeId) (rigType : Option String) : Edit Nat := do
  modifySettings node (·.bindTo rigType)
  rebuild registry node

/-- Shows or hides the pin of one field.  Nothing is made anew where nothing changes. -/
def enableField (registry : RigRegistry) (node : NodeId) (field : String)
    (direction : PinDirection) (enabled : Bool) : Edit Nat := do
  let disabled := (← query (·.settings node)).disabled direction
  if disabled.contains field ≠ enabled then return 0
  let disabled := if enabled then disabled.erase field else disabled.add field
  modifySettings node (·.setDisabled direction disabled)
  rebuild registry node

end Edit

namespace Graph

/-- Evaluators belong in graphs whose class derives from the base class of the rigs. -/
def acceptsEvaluators (graph : Graph) (registry : RigRegistry) : Bool :=
  match graph.parentClass with
  | none => false
  | some parent =>
      parent = registry.base || registry.hierarchy.derivesFrom parent registry.base ||
        graph.hierarchy.derivesFrom parent registry.base

end Graph

end RigLowering
