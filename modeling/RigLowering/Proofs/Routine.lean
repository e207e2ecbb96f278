import RigLowering.Proofs.Growth
import RigLowering.Proofs.Rollback

namespace RigLowering

namespace Graph

/-- Each node with its kind, in the order in which the graph holds them. -/
def kinds (graph : Graph) : List (NodeId × NodeKind) :=
  graph.nodes.toList.map fun node => (node.id, node.kind)

theorem length_kinds (graph : Graph) : graph.kinds.length = graph.nodes.size := by
  simp [kinds]

theorem getElem?_kinds (graph : Graph) (id : NodeId) :
    graph.kinds[id.index]? = (graph.node? id).map fun node => (node.id, node.kind) := by
  simp [kinds, node?]

theorem composites_eq (graph : Graph) :
    graph.composites = (graph.kinds.filter (·.2.isComposite)).map (·.1) := by
  simp [composites, kinds, List.filter_map, Function.comp_def]

/-- A change of a node does not show where the view of it stays the same. -/
theorem map_nodes_changeNode {α : Type} (graph : Graph) (id : NodeId) {change : Node → Node}
    {view : Node → α} (same : ∀ node, view (change node) = view node) :
    (graph.changeNode id change).nodes.toList.map view = graph.nodes.toList.map view := by
  apply List.ext_getElem?
  intro index
  have viewed (graph : Graph) : (graph.nodes.toList.map view)[index]? =
      (graph.node? ⟨index⟩).map view := by simp [node?]
  rw [viewed, viewed, node?_changeNode]
  split
  · rw [Option.map_map]
    congr 1
    funext node
    exact same node
  · rfl

theorem composites_changeNode (graph : Graph) (id : NodeId) {change : Node → Node}
    (keepsId : ∀ node, (change node).id = node.id)
    (keepsComposite : ∀ node, (change node).kind.isComposite = node.kind.isComposite) :
    (graph.changeNode id change).composites = graph.composites := by
  have viewed (graph : Graph) : graph.composites =
      ((graph.nodes.toList.map fun node => (node.id, node.kind.isComposite)).filter (·.2)).map
        (·.1) := by
    simp [composites, List.filter_map, Function.comp_def]
  rw [viewed, viewed, map_nodes_changeNode]
  exact fun node => Prod.ext (keepsId node) (keepsComposite node)

theorem kinds_withNode (graph : Graph) (kind : NodeKind) (source : NodeId) :
    (graph.withNode kind source).kinds = graph.kinds ++ [(⟨graph.nodes.size⟩, kind)] := by
  rw [withNode, kinds, map_nodes_changeNode]
  · simp [kinds]
  · exact fun _ => rfl

/-- A primitive node is not among the composites. -/
theorem composites_withNode (graph : Graph) {kind : NodeKind} (source : NodeId)
    (primitive : kind.settings? = none) :
    (graph.withNode kind source).composites = graph.composites := by
  rw [composites_eq, kinds_withNode, List.filter_append, List.map_append, ← composites_eq]
  simp [NodeKind.isComposite, primitive]

end Graph

namespace Edit

/-- Whatever comes of the edit, the graph has the nodes that it had, each of its kind. -/
def Confined {α : Type} (edit : Edit α) : Prop :=
  ∀ graph, (edit graph).2.kinds = graph.kinds

theorem confined_iff {α : Type} {edit : Edit α} :
    Confined edit ↔ ∀ kinds, Keeps (·.kinds = kinds) edit := by
  constructor
  · intro confined kinds graph same
    exact (confined graph).trans same
  · intro kept graph
    exact kept graph.kinds graph rfl

theorem modifyPin_confined (id : PinId) (change : Pin → Pin) : Confined (modifyPin id change) := by
  intro graph
  rw [modifyPin_apply]
  cases graph.pin? id with
  | none => rfl
  | some pin => rfl

theorem addPin_confined (node : NodeId) (direction : PinDirection) (pinType : PinType)
    (name : String) : Confined (addPin node direction pinType name) := by
  intro graph
  rcases addPin_cases node direction pinType name graph with ⟨_, failed⟩ | ⟨_, _, _, added⟩
  · rw [failed]
  · rw [added]
    exact Graph.map_nodes_changeNode _ _ fun _ => rfl

theorem query_confined {α : Type} (answer : Graph → Except Error α) : Confined (query answer) :=
  fun _ => rfl

section Kept

variable {kinds : List (NodeId × NodeKind)}

private theorem modifyPin_keeps_kinds (id : PinId) (change : Pin → Pin) :
    Keeps (·.kinds = kinds) (modifyPin id change) :=
  confined_iff.mp (modifyPin_confined id change) kinds

theorem link_confined (a b : PinId) : Confined (link a b) :=
  confined_iff.mpr fun _ => keeps_link modifyPin_keeps_kinds a b

theorem unlinkNode_confined (node : NodeId) : Confined (unlinkNode node) :=
  confined_iff.mpr fun _ => keeps_unlinkNode (keeps_unlinkPin modifyPin_keeps_kinds) node

theorem transferLinks_confined (origin dest : PinId) : Confined (transferLinks origin dest) :=
  confined_iff.mpr fun _ => keeps_transferLinks (keeps_unlink modifyPin_keeps_kinds)
    (keeps_link modifyPin_keeps_kinds) origin dest

theorem layPins_confined (node : NodeId) (specs : List PinSpec) : Confined (layPins node specs) :=
  confined_iff.mpr fun kinds => Keeps.forM (fun _ => Keeps.discard
    ((confined_iff.mp (addPin_confined node _ _ _) kinds).bind fun _ =>
      (modifyPin_keeps_kinds _ _).bind fun _ => keeps_pure _)) specs

end Kept

end Edit

/-! What an expansion does besides taking an index, warning of pins and marking its evaluator. -/

namespace Pass

theorem spawnNode_cases (kind : NodeKind) (source : NodeId) (state : PassState) :
    (∃ error, spawnNode kind source state = (.error error, state)) ∨
      spawnNode kind source state = (.ok ⟨state.graph.nodes.size⟩, { state with
        graph := state.graph.withNode kind source, spawned := state.spawned + 1 }) := by
  have ran : spawnNode kind source state =
      (edit (Edit.spawnNode kind source) >>= fun node => do
        modify fun state : PassState => { state with spawned := state.spawned + 1 }
        return node : Pass NodeId) state := rfl
  have edited : edit (Edit.spawnNode kind source) state =
      ((Edit.spawnNode kind source state.graph).1,
        { state with graph := (Edit.spawnNode kind source state.graph).2 }) := rfl
  rw [ran, bind_apply, edited]
  rcases Edit.spawnNode_cases kind source state.graph with ⟨error, failed⟩ | made
  · rw [failed]
    exact .inl ⟨error, rfl⟩
  · rw [made]
    exact .inr rfl

/-- Edits and spawning say nothing. -/
inductive Quiet : {α : Type} → Pass α → Prop
  | edit {α : Type} {change : Edit α} (confined : change.Confined) : Quiet (edit change)
  | spawnNode {kind : NodeKind} (source : NodeId) (primitive : kind.settings? = none)
      (nameless : kind.functionName? = none) : Quiet (spawnNode kind source)
  | spawnEventNode (signature base : String) (source : NodeId) :
      Quiet (spawnEventNode signature base source)
  | bind {α β : Type} {first : Pass α} {next : α → Pass β} (firstQuiet : Quiet first)
      (nextQuiet : ∀ value, Quiet (next value)) : Quiet (first >>= next)

/-- Quiet steps and warnings. -/
inductive Routine : {α : Type} → Pass α → Prop
  | quiet {α : Type} {step : Pass α} (quiet : Quiet step) : Routine step
  | warn (node : NodeId) (message : String) : Routine (warn node message)
  | bind {α β : Type} {first : Pass α} {next : α → Pass β} (firstRoutine : Routine first)
      (nextRoutine : ∀ value, Routine (next value)) : Routine (first >>= next)

namespace Quiet

theorem pure {α : Type} (value : α) : Quiet (Pure.pure value : Pass α) :=
  @edit _ (Edit.query fun _ => .ok value) fun _ => rfl

theorem throw {α : Type} (error : Error) : Quiet (throw error : Pass α) :=
  @edit _ (Edit.query fun _ => .error error) fun _ => rfl

theorem discard {α : Type} {step : Pass α} (quiet : Quiet step) :
    Quiet (Functor.discard step : Pass Unit) :=
  quiet.bind fun _ => pure _

theorem forM {α : Type} {step : α → Pass PUnit} (quiet : ∀ value, Quiet (step value))
    (values : List α) : Quiet (values.forM step) := by
  induction values with
  | nil => exact pure _
  | cons value rest ih => exact (quiet value).bind fun _ => ih

theorem foldlM {α β : Type} {step : β → α → Pass β}
    (quiet : ∀ result value, Quiet (step result value)) (result : β) (values : List α) :
    Quiet (values.foldlM step result) := by
  induction values generalizing result with
  | nil => exact pure _
  | cons value rest ih =>
      rw [List.foldlM_cons]
      exact (quiet result value).bind fun _ => ih _

theorem query {α : Type} (answer : Graph → Except Error α) : Quiet (Pass.query answer) :=
  edit (Edit.query_confined answer)

theorem findPin (node : NodeId) (name : String) (direction : PinDirection) :
    Quiet (Pass.findPin node name direction) :=
  query _

theorem modifyPin (id : PinId) (change : Pin → Pin) : Quiet (Pass.edit (.modifyPin id change)) :=
  edit (Edit.modifyPin_confined id change)

theorem link (a b : PinId) : Quiet (Pass.edit (.link a b)) :=
  edit (Edit.link_confined a b)

theorem transferPin (origin dest : PinId) : Quiet (Pass.transferPin origin dest) := by
  refine edit (Edit.confined_iff.mpr fun kinds =>
    (Edit.confined_iff.mp (Edit.transferLinks_confined origin dest) kinds).bind fun _ =>
      (Edit.keeps_query _).bind fun source => ?_)
  split
  · exact Edit.confined_iff.mp (Edit.modifyPin_confined _ _) kinds
  · exact keeps_pure _

theorem spawn {kind : NodeKind} (pins : List PinSpec) (source : NodeId)
    (primitive : kind.settings? = none) (nameless : kind.functionName? = none) :
    Quiet (Pass.spawn kind pins source) :=
  (spawnNode source primitive nameless).bind fun _ =>
    (edit (Edit.layPins_confined _ _)).bind fun _ => pure _

theorem spawnEvent (source : NodeId) (signature base : String) :
    Quiet (Pass.spawnEvent source signature base) :=
  (spawnEventNode signature base source).bind fun _ =>
    (edit (Edit.layPins_confined _ _)).bind fun _ => pure _

section FieldAccess

variable (access : FieldAccess) (field : Field)

theorem routeValue (value : PinId) : Quiet (access.routeValue value) := by
  unfold FieldAccess.routeValue
  split
  · exact link _ _
  · exact transferPin _ _

theorem attachHandle (node : NodeId) : Quiet (access.attachHandle node) :=
  (findPin _ _ _).bind fun _ => link _ _

theorem spliceExec (exec : Option PinId) (node : NodeId) :
    Quiet (FieldAccess.spliceExec exec node) := by
  refine (findPin _ _ _).bind fun execute => (findPin _ _ _).bind fun continuation => ?_
  cases exec with
  | none => exact pure _
  | some exec =>
      exact (edit (Edit.transferLinks_confined _ _)).bind fun _ => (link _ _).bind fun _ => pure _

theorem expandField : Quiet (access.expand field) := by
  have writeValue : Quiet (access.writeValue field) :=
    (spawn _ _ rfl rfl).bind fun _ => (findPin _ _ _).bind fun _ => (routeValue _ _).bind fun _ =>
      (attachHandle _ _).bind fun _ => spliceExec _ _
  have readCopy : Quiet (access.readCopy field) :=
    (spawn _ _ rfl rfl).bind fun _ => (findPin _ _ _).bind fun _ => (attachHandle _ _).bind fun _ =>
      (spawn _ _ rfl rfl).bind fun _ => (findPin _ _ _).bind fun _ => (findPin _ _ _).bind fun _ =>
        (link _ _).bind fun _ => (transferPin _ _).bind fun _ => pure _
  unfold FieldAccess.expand
  split
  · exact writeValue
  · exact writeValue
  · exact (spawn _ _ rfl rfl).bind fun _ => (findPin _ _ _).bind fun _ =>
      (findPin _ _ _).bind fun _ => (routeValue _ _).bind fun _ =>
        (spawn _ _ rfl rfl).bind fun _ => (findPin _ _ _).bind fun _ => (link _ _).bind fun _ =>
          (attachHandle _ _).bind fun _ => spliceExec _ _
  · exact (spawn _ _ rfl rfl).bind fun _ => (findPin _ _ _).bind fun _ =>
      (routeValue _ _).bind fun _ => (attachHandle _ _).bind fun _ => spliceExec _ _
  · exact (spawn _ _ rfl rfl).bind fun _ => (findPin _ _ _).bind fun _ => (attachHandle _ _).bind
      fun _ => (transferPin _ _).bind fun _ => pure _
  · exact readCopy
  · exact readCopy
  · exact throw _

end FieldAccess

section Target

variable (env : Environment) (target : Target)

theorem castToRigType (object : PinId) : Quiet (target.castToRigType object) :=
  (spawn _ _ rfl rfl).bind fun _ => (query _).bind fun _ => (link _ _).bind fun _ => query _

theorem writeInputs (handle exec : PinId) (parameters : List (PinId × Field)) :
    Quiet (target.writeInputs handle exec parameters) :=
  (foldlM (fun _ _ => expandField _ _) _ _).discard

theorem evaluate (subRig : SubRig) (delegate : Option PinId) :
    Quiet (target.evaluate env subRig delegate) := by
  refine (spawn _ _ rfl rfl).bind fun call => ?_
  have rest : Quiet (do
      let rig ← Pass.findPin call RuntimeName.target .input
      Pass.edit (.link subRig.pin rig)
      let evaluated ← Pass.findPin call PinName.returnValue .output
      target.castToRigType evaluated) :=
    (findPin _ _ _).bind fun _ => (link _ _).bind fun _ =>
      (findPin _ _ _).bind fun _ => castToRigType _ _
  cases delegate with
  | none => exact rest
  | some delegate => exact (findPin _ _ _).bind fun _ => (link _ _).bind fun _ => rest

theorem readOutputs (result : PinId) (parameters : List (PinId × Field)) :
    Quiet (target.readOutputs result parameters) :=
  forM (fun _ => (expandField _ _).discard) _

end Target

end Quiet

namespace Routine

theorem pure {α : Type} (value : α) : Routine (Pure.pure value : Pass α) :=
  quiet (.pure value)

theorem mapM {α β : Type} {step : α → Pass β} (routine : ∀ value, Routine (step value))
    (values : List α) : Routine (values.mapM step) := by
  induction values with
  | nil => exact pure _
  | cons value rest ih =>
      rw [List.mapM_cons]
      exact (routine value).bind fun _ => ih.bind fun _ => pure _

theorem query {α : Type} (answer : Graph → Except Error α) : Routine (Pass.query answer) :=
  quiet (.query answer)

theorem parameters (env : Environment) (target : Target) (direction : PinDirection) :
    Routine (target.parameters env direction) := by
  have parameter? (id : PinId) : Routine (target.parameter? env direction id) := by
    refine (query _).bind fun pin => ?_
    split
    · split
      · exact pure _
      · exact (warn _ _).bind fun _ => pure _
    · exact pure _
  exact (query _).bind fun _ => (mapM parameter? _).bind fun _ => pure _

end Routine

end Pass

/-! An expansion takes its index right after it has spawned the call that allocates the sub-rig. -/

namespace Target

variable (env : Environment) (target : Target)

/-- What is left of the allocation once the index is taken. -/
def present (call : NodeId) (index : UInt32) : Pass PinId := do
  let indexPin ← Pass.findPin call RuntimeName.allocationIndex .input
  Pass.edit (.modifyPin indexPin fun pin => { pin with defaultValue := some (toString index) })
  let classPin ← Pass.findPin call RuntimeName.rigClass .input
  Pass.edit (.modifyPin classPin fun pin => { pin with defaultObject := some target.rigType })
  target.castToRigType (← Pass.findPin call PinName.returnValue .output)

/-- What is left of the inputs once the sub-rig is allocated. -/
def gather (parameters : List (PinId × Field)) (subRig : SubRig) : Pass (NodeId × PinId) := do
  let event ← Pass.spawnEvent target.node env.runtime.gatherSignature (eventName subRig.index)
  let exec ← Pass.findPin event PinName.continuation .output
  target.writeInputs subRig.pin exec parameters
  return (event, ← Pass.findPin event PinName.outputDelegate .output)

/-- The sub-rig that the inputs were gathered for, or one that is allocated now. -/
def provide (gathered : Option GatheredInputs) : Pass SubRig :=
  match gathered with
  | some gathered => pure gathered.subRig
  | none => target.allocate env

/-- What is left of the outputs once there is a sub-rig to read them from. -/
def deliver (delegate : Option PinId) (subRig : SubRig) : Pass Unit := do
  let rig ← Pass.findPin target.node PinName.rig .output
  Pass.transferPin rig subRig.pin
  let result ← target.evaluate env subRig delegate
  target.readOutputs result (← target.parameters env .output)

theorem allocate_eq :
    target.allocate env = (do
      let call ← Pass.spawnCall target.node env.runtime.allocate true
      let index ← Pass.takeIndex
      let pin ← target.present call index
      return ⟨index, pin⟩) := by
  simp only [allocate, present, bind_assoc]

theorem expandInputs_eq :
    target.expandInputs env = (do
      let parameters ← target.parameters env .input
      if parameters.isEmpty then return none
      else do
        let subRig ← target.allocate env
        let (event, delegate) ← target.gather env parameters subRig
        return some ⟨subRig, event, delegate⟩) := by
  simp only [expandInputs, gather, bind_assoc, pure_bind]

theorem expandOutputs_eq (gathered : Option GatheredInputs) :
    target.expandOutputs env gathered = (do
      let subRig ← target.provide env gathered
      target.deliver env (gathered.map (·.delegate)) subRig
      return subRig.index) := by
  cases gathered with
  | none => simp only [expandOutputs, provide, deliver, bind_assoc]
  | some gathered => simp only [expandOutputs, provide, deliver, bind_assoc]

theorem present_quiet (call : NodeId) (index : UInt32) : (target.present call index).Quiet :=
  (Pass.Quiet.findPin _ _ _).bind fun _ => (Pass.Quiet.modifyPin _ _).bind fun _ =>
    (Pass.Quiet.findPin _ _ _).bind fun _ => (Pass.Quiet.modifyPin _ _).bind fun _ =>
      (Pass.Quiet.findPin _ _ _).bind fun _ => .castToRigType _ _

theorem gather_quiet (parameters : List (PinId × Field)) (subRig : SubRig) :
    (target.gather env parameters subRig).Quiet :=
  (Pass.Quiet.spawnEvent _ _ _).bind fun _ => (Pass.Quiet.findPin _ _ _).bind fun _ =>
    (Pass.Quiet.writeInputs _ _ _ _).bind fun _ =>
      (Pass.Quiet.findPin _ _ _).bind fun _ => .pure _

theorem deliver_routine (delegate : Option PinId) (subRig : SubRig) :
    (target.deliver env delegate subRig).Routine :=
  (Pass.Routine.quiet (.findPin _ _ _)).bind fun _ =>
    (Pass.Routine.quiet (.transferPin _ _)).bind fun _ =>
      (Pass.Routine.quiet (.evaluate _ _ _ _)).bind fun _ =>
        (Pass.Routine.parameters _ _ _).bind fun _ => .quiet (.readOutputs _ _ _)

end Target

namespace PassState

/-- The property looks at no more of the graph than at its nodes and their kinds, more primitive
nodes do no harm to it as long as they are counted, and neither do reserved names. -/
structure Steady (property : PassState → Prop) : Prop where
  edited : ∀ {state : PassState} {graph : Graph}, graph.kinds = state.graph.kinds →
    property state → property { state with graph }
  spawned : ∀ {state : PassState} {kind : NodeKind} (source : NodeId), kind.settings? = none →
    property state →
      property { state with
        graph := state.graph.withNode kind source, spawned := state.spawned + 1 }
  reserved : ∀ {state : PassState} (functionNames : NameSet), property state →
    property { state with functionNames }

/-- Nor do warnings. -/
structure Lasting (property : PassState → Prop) : Prop extends Steady property where
  warned : ∀ {state : PassState} (node : NodeId) (message : String), property state →
    property (state.report .warning (some node) message)

variable {property : PassState → Prop}

theorem Steady.spawnNode (steady : Steady property) {kind : NodeKind} (source : NodeId)
    (primitive : kind.settings? = none) : Keeps property (Pass.spawnNode kind source) := by
  intro state holds
  rcases Pass.spawnNode_cases kind source state with ⟨_, failed⟩ | made
  · rw [failed]
    exact holds
  · rw [made]
    exact steady.spawned source primitive holds

theorem Steady.keeps (steady : Steady property) {α : Type} {step : Pass α}
    (quiet : step.Quiet) : Keeps property step := by
  induction quiet with
  | edit confined => exact fun state holds => steady.edited (confined state.graph) holds
  | spawnNode source primitive => exact steady.spawnNode source primitive
  | spawnEventNode signature base source =>
      have reserved : Keeps property (Pass.reserveName base) :=
        fun _ holds => steady.reserved _ holds
      exact reserved.bind fun _ => steady.spawnNode source rfl
  | bind _ _ first next => exact first.bind next

theorem Lasting.keeps (lasting : Lasting property) {α : Type} {step : Pass α}
    (routine : step.Routine) : Keeps property step := by
  induction routine with
  | quiet quiet => exact lasting.toSteady.keeps quiet
  | warn node message => exact fun _ holds => lasting.warned node message holds
  | bind _ _ first next => exact first.bind next

end PassState

/-- To allocate a sub-rig takes no more than quiet steps and an index. -/
theorem Target.keeps_allocate {property : PassState → Prop}
    (kept : ∀ {α : Type} {step : Pass α}, step.Quiet → Keeps property step)
    (taken : Keeps property Pass.takeIndex) (env : Environment) (target : Target) :
    Keeps property (target.allocate env) := by
  rw [allocate_eq]
  exact (kept (.spawn _ _ rfl rfl)).bind fun _ => taken.bind fun _ =>
    (kept (target.present_quiet _ _)).bind fun _ => keeps_pure _

section Expansion

variable {property : PassState → Prop}
  (kept : ∀ {α : Type} {step : Pass α}, step.Routine → Keeps property step)
  (taken : Keeps property Pass.takeIndex)

include kept taken

theorem Target.keeps_expand
    (marked : ∀ node, Keeps property
      (Pass.edit (.modifyNode node (·.mapSettings EvaluatorSettings.markInert))))
    (env : Environment) (target : Target) : Keeps property (target.expand env) := by
  have allocated := target.keeps_allocate (fun quiet => kept (.quiet quiet)) taken env
  refine Keeps.bind ?_ fun gathered => Keeps.bind ?_ fun index =>
    (kept (.quiet (.edit (Edit.unlinkNode_confined _)))).bind fun _ => (marked _).bind fun _ =>
      keeps_pure _
  · rw [expandInputs_eq]
    refine (kept (.parameters env target _)).bind fun parameters => ?_
    split
    · exact keeps_pure _
    · exact allocated.bind fun _ =>
        (kept (.quiet (target.gather_quiet env _ _))).bind fun _ => keeps_pure _
  · rw [expandOutputs_eq]
    refine Keeps.bind ?_ fun subRig =>
      (kept (target.deliver_routine env _ _)).bind fun _ => keeps_pure _
    cases gathered with
    | none => exact allocated
    | some gathered => exact keeps_pure _

theorem Environment.keeps_expandNode
    (marked : ∀ node, Keeps property
      (Pass.edit (.modifyNode node (·.mapSettings EvaluatorSettings.markInert))))
    (env : Environment) (node : NodeId) : Keeps property (env.expandNode node) := by
  refine Keeps.bind keeps_get fun state => (kept (.query _)).bind fun found => ?_
  cases found with
  | inl reason => exact keeps_pure _
  | inr target => exact target.keeps_expand kept taken marked env

end Expansion

end RigLowering
