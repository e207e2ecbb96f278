import RigLowering.Pass.FieldAccess

namespace RigLowering

/-! Lowering of one evaluator.  A call allocates the sub-rig; where inputs are linked, an event
writes them to its fields one after another; a second call evaluates the sub-rig, after the event
if there is one; and the outputs are read from the fields of the result. -/

inductive SkipReason
  | notFullCompile
  | notComposite
  | alreadyExpanded
  | unresolvedRigType
  deriving DecidableEq, Repr

inductive Outcome
  | expanded (index : UInt32) (event : Option NodeId)
  | skipped (reason : SkipReason)
  deriving DecidableEq

/-- The rig classes and the runtime that a pass expands against. -/
structure Environment where
  registry : RigRegistry
  runtime : RigRuntime

namespace Environment

/-- A sub-rig can be handed to the runtime only where both mean the same base class. -/
def of (registry : RigRegistry) (runtime : RigRuntime) : Except Error Environment :=
  if registry.base = runtime.base then .ok ⟨registry, runtime⟩
  else .error (.baseClassMismatch registry.base runtime.base)

end Environment

/-- What is expanded: an evaluator, bound to a registered class. -/
structure Target where
  node : NodeId
  rigType : String
  settings : EvaluatorSettings

/-- The allocated sub-rig. -/
structure SubRig where
  index : UInt32
  pin : PinId

structure GatheredInputs where
  subRig : SubRig
  event : NodeId
  delegate : PinId

namespace Target

def castToRigType (target : Target) (object : PinId) : Pass PinId := do
  let cast ← Pass.spawnCast target.node target.rigType true
  let source ← Pass.query (·.castSource cast)
  Pass.edit (.link object source)
  Pass.query (·.castResult cast)

def allocate (env : Environment) (target : Target) : Pass SubRig := do
  let call ← Pass.spawnCall target.node env.runtime.allocate true
  let index ← Pass.takeIndex
  let indexPin ← Pass.findPin call RuntimeName.allocationIndex .input
  Pass.edit (.modifyPin indexPin fun pin => { pin with defaultValue := some (toString index) })
  let classPin ← Pass.findPin call RuntimeName.rigClass .input
  Pass.edit (.modifyPin classPin fun pin => { pin with defaultObject := some target.rigType })
  let allocated ← Pass.findPin call PinName.returnValue .output
  return ⟨index, ← target.castToRigType allocated⟩

/-- Linked, not disabled, and other than the sub-rig output. -/
def isParameter (target : Target) (direction : PinDirection) (pin : Pin) : Bool :=
  !(direction = .output && pin.name = PinName.rig) &&
    !(target.settings.disabled direction).contains pin.name && pin.isLinked

def unmatchedWarning (target : Target) (direction : PinDirection) (pin : Pin) : String :=
  s!"pin '{pin.name}' does not match any {direction.title} field of {target.rigType}"

/-- The pin with the field behind it.  A pin without one is only warned of. -/
def parameter? (env : Environment) (target : Target) (direction : PinDirection) (id : PinId) :
    Pass (Option (PinId × Field)) := do
  let pin ← Pass.edit (.pin id)
  if target.isParameter direction pin then
    match env.registry.findField? target.rigType pin.name direction with
    | some field => return some (id, field)
    | none =>
        Pass.warn target.node (target.unmatchedWarning direction pin)
        return none
  else return none

def parameters (env : Environment) (target : Target) (direction : PinDirection) :
    Pass (List (PinId × Field)) := do
  let pins ← Pass.query (·.pinsToward target.node direction)
  return (← pins.mapM (target.parameter? env direction)).filterMap id

def access (target : Target) (handle external : PinId) (exec : Option PinId) : FieldAccess :=
  ⟨target.rigType, target.node, external, handle, false, exec⟩

/-- The writes run in the order of the pins. -/
def writeInputs (target : Target) (handle : PinId) (exec : PinId)
    (parameters : List (PinId × Field)) : Pass Unit :=
  discard (parameters.foldlM
    (fun exec parameter => (target.access handle parameter.1 exec).expand parameter.2) (some exec))

def eventName (index : UInt32) : String :=
  "RigPreEvaluateEvent" ++ toString index

/-- Nothing is allocated for inputs where none is linked. -/
def expandInputs (env : Environment) (target : Target) : Pass (Option GatheredInputs) := do
  let parameters ← target.parameters env .input
  if parameters.isEmpty then return none
  let subRig ← target.allocate env
  let event ← Pass.spawnEvent target.node env.runtime.gatherSignature (eventName subRig.index)
  let exec ← Pass.findPin event PinName.continuation .output
  target.writeInputs subRig.pin exec parameters
  let delegate ← Pass.findPin event PinName.outputDelegate .output
  return some ⟨subRig, event, delegate⟩

def evaluate (env : Environment) (target : Target) (subRig : SubRig) (delegate : Option PinId) :
    Pass PinId := do
  let function :=
    if delegate.isSome then env.runtime.evaluateWithInputs else env.runtime.evaluate
  let call ← Pass.spawnCall target.node function true
  match delegate with
  | none => pure ()
  | some delegate =>
      let parameter ← Pass.findPin call RuntimeName.preEvaluate .input
      Pass.edit (.link delegate parameter)
  let rig ← Pass.findPin call RuntimeName.target .input
  Pass.edit (.link subRig.pin rig)
  let evaluated ← Pass.findPin call PinName.returnValue .output
  target.castToRigType evaluated

def readOutputs (target : Target) (result : PinId) (parameters : List (PinId × Field)) :
    Pass Unit :=
  parameters.forM fun parameter =>
    discard ((target.access result parameter.1 none).expand parameter.2)

/-- The index of the sub-rig that the outputs are read from. -/
def expandOutputs (env : Environment) (target : Target) (gathered : Option GatheredInputs) :
    Pass UInt32 := do
  let subRig ← match gathered with
    | some gathered => pure gathered.subRig
    | none => target.allocate env
  let rig ← Pass.findPin target.node PinName.rig .output
  Pass.transferPin rig subRig.pin
  let result ← target.evaluate env subRig (gathered.map (·.delegate))
  target.readOutputs result (← target.parameters env .output)
  return subRig.index

/-- The evaluator stays behind without links. -/
def expand (env : Environment) (target : Target) : Pass Outcome := do
  let gathered ← target.expandInputs env
  let index ← target.expandOutputs env gathered
  Pass.edit (.unlinkNode target.node)
  Pass.edit (.modifyNode target.node (·.mapSettings EvaluatorSettings.markInert))
  return .expanded index (gathered.map (·.event))

end Target

namespace Environment

/-- What to expand the node as, or why to leave it alone. -/
def target (env : Environment) (fullCompile : Bool) (graph : Graph) (node : NodeId) :
    Except Error (SkipReason ⊕ Target) := do
  if !fullCompile then return .inl .notFullCompile
  match (← graph.node node).kind.settings? with
  | none => return .inl .notComposite
  | some settings =>
      if settings.inert then return .inl .alreadyExpanded
      match env.registry.rigType? settings with
      | none => return .inl .unresolvedRigType
      | some rigType => return .inr ⟨node, rigType, settings⟩

def expandNode (env : Environment) (node : NodeId) : Pass Outcome := do
  let fullCompile := (← get).fullCompile
  match ← Pass.query (env.target fullCompile · node) with
  | .inl reason => return .skipped reason
  | .inr target => target.expand env

end Environment

end RigLowering
