import RigLowering.Pass.Compilation
import RigLowering.Proofs.Steps

namespace RigLowering

/-! An answer about a graph that does not depend on what is being recorded. -/

def Steady {α : Type} (answer : Graph → Except Error α) : Prop :=
  ∀ graph, answer graph.commit = answer graph

namespace Graph

theorem steady_findPinAmong (name : String) (direction : Option PinDirection) (ids : List PinId) :
    Steady (·.findPinAmong name direction ids) := by
  intro graph
  induction ids with
  | nil => rfl
  | cons id rest ih =>
      simp only [findPinAmong, ih]
      rfl

theorem steady_findPin? (node : NodeId) (name : String) (direction : Option PinDirection) :
    Steady (·.findPin? node name direction) := by
  intro graph
  simp only [findPin?, steady_findPinAmong name direction _ graph]
  rfl

theorem steady_findPin (node : NodeId) (name : String) (direction : Option PinDirection) :
    Steady (·.findPin node name direction) := by
  intro graph
  simp only [findPin, steady_findPin? node name direction graph]

theorem steady_castResult (cast : NodeId) : Steady (·.castResult cast) := by
  intro graph
  simp only [castResult, steady_findPin cast _ _ graph]
  rfl

end Graph

namespace Pin

def setLiterals (value object : Pin → Option String) (pin : Pin) : Pin :=
  { pin with defaultValue := value pin, defaultObject := object pin }

theorem withDefaultLiteral_eq_setLiterals :
    withDefaultLiteral = setLiterals (·.withDefaultLiteral.defaultValue) (·.defaultObject) := by
  funext pin
  change pin.withDefaultLiteral =
    { pin with defaultValue := pin.withDefaultLiteral.defaultValue }
  unfold withDefaultLiteral
  split <;> rfl

end Pin

namespace Edit

theorem layPin_eq (node : NodeId) (spec : PinSpec) :
    layPin node spec = (do
      let pin ← addPin node spec.direction spec.pinType spec.name
      modifyPin pin (·.setLiterals (·.withDefaultLiteral.defaultValue) (·.defaultObject))
      return pin) := by
  unfold layPin
  rw [show (·.withDefaultLiteral) = Pin.setLiterals _ _ from Pin.withDefaultLiteral_eq_setLiterals]

/-- A new node that stands for part of what `source` meant. -/
def spawnNode (kind : NodeKind) (source : NodeId) : Edit NodeId := do
  let _ ← node source
  let spawned ← addNode kind
  modifyNode spawned fun spawned => { spawned with spawnedBy := some source }
  return spawned

/-! What expansions do to a graph is made of few operations.  None of them takes away a node or a
pin. -/

inductive Composed : {α : Type} → Edit α → Prop
  | query {α : Type} {answer : Graph → Except Error α} (steady : Steady answer) :
      Composed (query answer)
  | spawnNode (kind : NodeKind) (source : NodeId) : Composed (spawnNode kind source)
  | changeSettings (node : NodeId) (change : EvaluatorSettings → EvaluatorSettings) :
      Composed (modifyNode node (·.mapSettings change))
  | addPin (node : NodeId) (direction : PinDirection) (pinType : PinType) (name : String) :
      Composed (addPin node direction pinType name)
  | changeLiterals (pin : PinId) (value object : Pin → Option String) :
      Composed (modifyPin pin (·.setLiterals value object))
  | link (a b : PinId) : Composed (link a b)
  | unlink (a b : PinId) : Composed (unlink a b)
  | unlinkPin (pin : PinId) : Composed (unlinkPin pin)
  | bind {α β : Type} {first : Edit α} {next : α → Edit β} (firstComposed : Composed first)
      (nextComposed : ∀ value, Composed (next value)) : Composed (first >>= next)

namespace Composed

theorem pure {α : Type} (value : α) : Composed (Pure.pure value) :=
  @query _ (fun _ => .ok value) fun _ => rfl

theorem throw {α : Type} (error : Error) : Composed (throw error : Edit α) :=
  @query _ (fun _ => .error error) fun _ => rfl

theorem node (id : NodeId) : Composed (Edit.node id) :=
  query fun _ => rfl

theorem pin (id : PinId) : Composed (Edit.pin id) :=
  query fun _ => rfl

theorem discard {α : Type} {edit : Edit α} (composed : Composed edit) :
    Composed (Functor.discard edit : Edit Unit) :=
  composed.bind fun _ => pure _

theorem forM {α : Type} {edit : α → Edit PUnit} (composed : ∀ value, Composed (edit value))
    (values : List α) : Composed (values.forM edit) := by
  induction values with
  | nil => exact pure _
  | cons value rest ih => exact (composed value).bind fun _ => ih

theorem unlinkNode (node : NodeId) : Composed (Edit.unlinkNode node) :=
  (Composed.node _).bind fun _ => forM unlinkPin _

theorem transferLinks (origin dest : PinId) : Composed (Edit.transferLinks origin dest) := by
  unfold Edit.transferLinks
  split
  · exact pure _
  · refine (pin _).bind fun source => (pin _).bind fun target => ?_
    split
    · exact forM (fun far => (unlink origin far).bind fun _ => link dest far) _
    · exact throw _

theorem layPin (node : NodeId) (spec : PinSpec) : Composed (Edit.layPin node spec) := by
  rw [layPin_eq]
  exact (addPin _ _ _ _).bind fun pin => (changeLiterals _ _ _).bind fun _ => pure _

theorem layPins (node : NodeId) (specs : List PinSpec) : Composed (Edit.layPins node specs) :=
  forM (fun spec => (layPin node spec).discard) _

end Composed

end Edit

namespace Pass

/-- The step neither looks at the graph nor touches it. -/
def Apart {α : Type} (step : Pass α) : Prop :=
  ∀ state graph spawnedAtCheckpoint,
    step.run { state with graph, spawnedAtCheckpoint } =
      ((step.run state).1, { (step.run state).2 with graph, spawnedAtCheckpoint })

theorem Apart.graph_eq {α : Type} {step : Pass α} (apart : Apart step) (state : PassState) :
    (step state).2.graph = state.graph :=
  congrArg (·.2.graph) (apart state state.graph state.spawnedAtCheckpoint)

theorem Apart.spawnedAtCheckpoint_eq {α : Type} {step : Pass α} (apart : Apart step)
    (state : PassState) : (step state).2.spawnedAtCheckpoint = state.spawnedAtCheckpoint :=
  congrArg (·.2.spawnedAtCheckpoint) (apart state state.graph state.spawnedAtCheckpoint)

/-- No step of an expansion changes what the pass has been asked to do. -/
inductive Composed : {α : Type} → Pass α → Prop
  | edit {α : Type} {change : Edit α} (composed : change.Composed) : Composed (edit change)
  | apart {α : Type} {step : Pass α} (apart : Apart step)
      (asked : ∀ state, (step state).2.fullCompile = state.fullCompile) : Composed step
  | bind {α β : Type} {first : Pass α} {next : α → Pass β} (firstComposed : Composed first)
      (nextComposed : ∀ value, Composed (next value)) : Composed (first >>= next)

namespace Composed

theorem pure {α : Type} (value : α) : Composed (Pure.pure value : Pass α) :=
  apart (fun _ _ _ => rfl) fun _ => rfl

theorem throw {α : Type} (error : Error) : Composed (throw error : Pass α) :=
  apart (fun _ _ _ => rfl) fun _ => rfl

theorem discard {α : Type} {step : Pass α} (composed : Composed step) :
    Composed (Functor.discard step : Pass Unit) :=
  composed.bind fun _ => pure _

theorem forM {α : Type} {step : α → Pass PUnit} (composed : ∀ value, Composed (step value))
    (values : List α) : Composed (values.forM step) := by
  induction values with
  | nil => exact pure _
  | cons value rest ih => exact (composed value).bind fun _ => ih

theorem mapM {α β : Type} {step : α → Pass β} (composed : ∀ value, Composed (step value))
    (values : List α) : Composed (values.mapM step) := by
  induction values with
  | nil => exact pure _
  | cons value rest ih =>
      rw [List.mapM_cons]
      exact (composed value).bind fun _ => ih.bind fun _ => pure _

theorem foldlM {α β : Type} {step : β → α → Pass β}
    (composed : ∀ result value, Composed (step result value)) (result : β) (values : List α) :
    Composed (values.foldlM step result) := by
  induction values generalizing result with
  | nil => exact pure _
  | cons value rest ih =>
      rw [List.foldlM_cons]
      exact (composed result value).bind fun _ => ih _

theorem query {α : Type} {answer : Graph → Except Error α} (steady : Steady answer) :
    Composed (Pass.query answer) :=
  edit (.query steady)

theorem findPin (node : NodeId) (name : String) (direction : PinDirection) :
    Composed (Pass.findPin node name direction) :=
  query (Graph.steady_findPin _ _ _)

theorem warn (node : NodeId) (message : String) : Composed (Pass.warn node message) :=
  apart (fun _ _ _ => rfl) fun _ => rfl

theorem takeIndex : Composed Pass.takeIndex :=
  apart (fun _ _ _ => rfl) fun _ => rfl

theorem reserveName (base : String) : Composed (Pass.reserveName base) :=
  apart (fun _ _ _ => rfl) fun _ => rfl

theorem link (a b : PinId) : Composed (Pass.edit (.link a b)) :=
  edit (.link a b)

theorem transferPin (origin dest : PinId) : Composed (Pass.transferPin origin dest) := by
  refine edit ((Edit.Composed.transferLinks origin dest).bind fun _ =>
    (Edit.Composed.pin origin).bind fun source => ?_)
  split
  · exact .changeLiterals _ _ _
  · exact .pure _

theorem spawnNode (kind : NodeKind) (source : NodeId) : Composed (Pass.spawnNode kind source) := by
  refine (edit (.spawnNode kind source)).bind fun node =>
    Composed.bind (apart ?_ fun _ => rfl) fun _ => pure _
  exact fun _ _ _ => rfl

theorem spawn (kind : NodeKind) (pins : List PinSpec) (source : NodeId) :
    Composed (Pass.spawn kind pins source) :=
  (spawnNode _ _).bind fun _ => (edit (.layPins _ _)).bind fun _ => pure _

theorem spawnEvent (source : NodeId) (signature base : String) :
    Composed (Pass.spawnEvent source signature base) :=
  ((reserveName _).bind fun _ => spawnNode _ _).bind fun _ =>
    (edit (.layPins _ _)).bind fun _ => pure _

section FieldAccess

variable (access : FieldAccess) (field : Field)

theorem routeValue (value : PinId) : Composed (access.routeValue value) := by
  unfold FieldAccess.routeValue
  split
  · exact link _ _
  · exact transferPin _ _

theorem attachHandle (node : NodeId) : Composed (access.attachHandle node) :=
  (findPin _ _ _).bind fun _ => link _ _

theorem spliceExec (exec : Option PinId) (node : NodeId) :
    Composed (FieldAccess.spliceExec exec node) := by
  refine (findPin _ _ _).bind fun execute => (findPin _ _ _).bind fun continuation => ?_
  cases exec with
  | none => exact pure _
  | some exec => exact (edit (.transferLinks _ _)).bind fun _ => (link _ _).bind fun _ => pure _

theorem writeValue : Composed (access.writeValue field) :=
  (spawn _ _ _).bind fun _ => (findPin _ _ _).bind fun _ => (routeValue _ _).bind fun _ =>
    (attachHandle _ _).bind fun _ => spliceExec _ _

theorem writeCopy : Composed (access.writeCopy field) :=
  (spawn _ _ _).bind fun _ => (findPin _ _ _).bind fun _ => (findPin _ _ _).bind fun _ =>
    (routeValue _ _).bind fun _ => (spawn _ _ _).bind fun _ => (findPin _ _ _).bind fun _ =>
      (link _ _).bind fun _ => (attachHandle _ _).bind fun _ => spliceExec _ _

theorem writeDelegate : Composed (access.writeDelegate field) :=
  (spawn _ _ _).bind fun _ => (findPin _ _ _).bind fun _ => (routeValue _ _).bind fun _ =>
    (attachHandle _ _).bind fun _ => spliceExec _ _

theorem readValue : Composed (access.readValue field) :=
  (spawn _ _ _).bind fun _ => (findPin _ _ _).bind fun _ => (attachHandle _ _).bind fun _ =>
    (transferPin _ _).bind fun _ => pure _

theorem readCopy : Composed (access.readCopy field) :=
  (spawn _ _ _).bind fun _ => (findPin _ _ _).bind fun _ => (attachHandle _ _).bind fun _ =>
    (spawn _ _ _).bind fun _ => (findPin _ _ _).bind fun _ => (findPin _ _ _).bind fun _ =>
      (link _ _).bind fun _ => (transferPin _ _).bind fun _ => pure _

theorem expandField : Composed (access.expand field) := by
  unfold FieldAccess.expand
  split
  · exact writeValue _ _
  · exact writeValue _ _
  · exact writeCopy _ _
  · exact writeDelegate _ _
  · exact readValue _ _
  · exact readCopy _ _
  · exact readCopy _ _
  · exact throw _

end FieldAccess

section Target

variable (env : Environment) (target : Target)

theorem castToRigType (object : PinId) : Composed (target.castToRigType object) :=
  (spawn _ _ _).bind fun _ => (query (Graph.steady_findPin _ _ _)).bind fun _ =>
    (link _ _).bind fun _ => query (Graph.steady_castResult _)

theorem allocate : Composed (target.allocate env) :=
  (spawn _ _ _).bind fun _ => takeIndex.bind fun _ => (findPin _ _ _).bind fun _ =>
    (edit (.changeLiterals _ (fun _ => some _) (·.defaultObject))).bind fun _ =>
      (findPin _ _ _).bind fun _ =>
        (edit (.changeLiterals _ (·.defaultValue) (fun _ => some _))).bind fun _ =>
          (findPin _ _ _).bind fun _ => (castToRigType _ _).bind fun _ => pure _

theorem parameter? (direction : PinDirection) (id : PinId) :
    Composed (target.parameter? env direction id) := by
  refine (edit (.pin id)).bind fun pin => ?_
  split
  · split
    · exact pure _
    · exact (warn _ _).bind fun _ => pure _
  · exact pure _

theorem parameters (direction : PinDirection) : Composed (target.parameters env direction) :=
  (query fun _ => rfl).bind fun _ => (mapM (parameter? env target direction) _).bind fun _ => pure _

theorem writeInputs (handle exec : PinId) (parameters : List (PinId × Field)) :
    Composed (target.writeInputs handle exec parameters) :=
  (foldlM (fun _ _ => expandField _ _) _ _).discard

theorem expandInputs : Composed (target.expandInputs env) := by
  refine (parameters env target .input).bind fun parameters => ?_
  split
  · exact pure _
  · exact (allocate env target).bind fun _ => (spawnEvent _ _ _).bind fun _ =>
      (findPin _ _ _).bind fun _ => (writeInputs _ _ _ _).bind fun _ =>
        (findPin _ _ _).bind fun _ => pure _

theorem evaluate (subRig : SubRig) (delegate : Option PinId) :
    Composed (target.evaluate env subRig delegate) := by
  refine (spawn _ _ _).bind fun call => ?_
  have rest : Composed (do
      let rig ← Pass.findPin call RuntimeName.target .input
      Pass.edit (.link subRig.pin rig)
      let evaluated ← Pass.findPin call PinName.returnValue .output
      target.castToRigType evaluated) :=
    (findPin _ _ _).bind fun _ => (link _ _).bind fun _ =>
      (findPin _ _ _).bind fun _ => castToRigType _ _
  cases delegate with
  | none => exact rest
  | some delegate => exact (findPin _ _ _).bind fun _ => (link _ _).bind fun _ => rest

theorem readOutputs (result : PinId) (parameters : List (PinId × Field)) :
    Composed (target.readOutputs result parameters) :=
  forM (fun _ => (expandField _ _).discard) _

theorem expandOutputs (gathered : Option GatheredInputs) :
    Composed (target.expandOutputs env gathered) := by
  have rest (subRig : SubRig) : Composed (do
      let rig ← Pass.findPin target.node PinName.rig .output
      Pass.transferPin rig subRig.pin
      let result ← target.evaluate env subRig (gathered.map (·.delegate))
      target.readOutputs result (← target.parameters env .output)
      return subRig.index) :=
    (findPin _ _ _).bind fun _ => (transferPin _ _).bind fun _ => (evaluate _ _ _ _).bind fun _ =>
      (parameters _ _ _).bind fun _ => (readOutputs _ _ _).bind fun _ => pure _
  cases gathered with
  | none => exact (allocate _ _).bind rest
  | some gathered => exact (pure _).bind rest

theorem expandTarget : Composed (target.expand env) :=
  (expandInputs _ _).bind fun _ => (expandOutputs _ _ _).bind fun _ =>
    (edit (.unlinkNode _)).bind fun _ => (edit (.changeSettings _ _)).bind fun _ => pure _

end Target

/-- Of the state of the pass, only whether it compiles in full decides what a node becomes. -/
private theorem expandNode_eq (env : Environment) (node : NodeId) :
    env.expandNode node =
      ((fun state => (.ok state.fullCompile, state) : Pass Bool) >>= fun fullCompile => do
        match ← Pass.query (env.target fullCompile · node) with
        | .inl reason => return .skipped reason
        | .inr target => target.expand env) := rfl

theorem expandNode (env : Environment) (node : NodeId) : Composed (env.expandNode node) := by
  rw [expandNode_eq]
  refine (apart (fun _ _ _ => rfl) fun _ => rfl).bind fun fullCompile => ?_
  refine (query fun _ => rfl).bind fun found => ?_
  cases found with
  | inl reason => exact pure _
  | inr target => exact expandTarget env target

theorem keeps_fullCompile {α : Type} {step : Pass α} {fullCompile : Bool}
    (composed : Composed step) : Keeps (·.fullCompile = fullCompile) step := by
  induction composed with
  | edit _ => exact fun _ same => same
  | apart _ asked => exact fun state same => (asked state).trans same
  | bind _ _ first next => exact first.bind next

end Composed

end Pass

end RigLowering
