import RigLowering.Graph.Links
import RigLowering.Proofs.Journal
import RigLowering.Proofs.Steps

namespace RigLowering

/-! The undo log of `current` knows enough to turn it back into `original`. -/

structure UndoLog.Recalls (log : UndoLog) (original current : Graph) : Prop where
  nodes : log.nodes.Recalls original.nodes current.nodes
  pins : log.pins.Recalls original.pins current.pins
  hierarchy : log.hierarchy.getD current.hierarchy = original.hierarchy

namespace Graph

structure Recalls (original current : Graph) : Prop where
  name : current.name = original.name
  parentClass : current.parentClass = original.parentClass
  undo : ∃ log, current.undo = some log ∧ log.Recalls original current

theorem recalls_checkpoint (graph : Graph) : graph.Recalls graph.checkpoint where
  name := rfl
  parentClass := rfl
  undo := ⟨_, rfl, Journal.recalls_start _, Journal.recalls_start _, rfl⟩

theorem Recalls.rollback_eq {original current : Graph} (recalls : original.Recalls current) :
    current.rollback = (true, original.commit) := by
  obtain ⟨name, parentClass, log, opened, nodes, pins, hierarchy⟩ := recalls
  simp only [rollback, opened, nodes.restore_eq, pins.restore_eq, hierarchy, name, parentClass,
    commit]

theorem Recalls.setNodes {original current : Graph} (recalls : original.Recalls current)
    {id : NodeId} {nodes : Array Node} (size : nodes.size = current.nodes.size)
    (others : ∀ other ≠ id.index, nodes[other]? = current.nodes[other]?) :
    original.Recalls { current.recordNode id with nodes } := by
  obtain ⟨name, parentClass, log, opened, logged⟩ := recalls
  exact ⟨name, parentClass, { log with nodes := log.nodes.record current.nodes id.index },
    by simp only [recordNode, opened, Option.map_some],
    logged.nodes.record size others, logged.pins, logged.hierarchy⟩

theorem Recalls.setPins {original current : Graph} (recalls : original.Recalls current)
    {id : PinId} {pins : Array (Option Pin)} (size : pins.size = current.pins.size)
    (others : ∀ other ≠ id.index, pins[other]? = current.pins[other]?) :
    original.Recalls { current.recordPin id with pins } := by
  obtain ⟨name, parentClass, log, opened, logged⟩ := recalls
  exact ⟨name, parentClass, { log with pins := log.pins.record current.pins id.index },
    by simp only [recordPin, opened, Option.map_some],
    logged.nodes, logged.pins.record size others, logged.hierarchy⟩

theorem Recalls.pushNode {original current : Graph} (recalls : original.Recalls current)
    (node : Node) : original.Recalls { current with nodes := current.nodes.push node } := by
  obtain ⟨name, parentClass, log, opened, logged⟩ := recalls
  exact ⟨name, parentClass, log, opened, logged.nodes.push node, logged.pins, logged.hierarchy⟩

theorem Recalls.pushPin {original current : Graph} (recalls : original.Recalls current)
    (pin : Option Pin) : original.Recalls { current with pins := current.pins.push pin } := by
  obtain ⟨name, parentClass, log, opened, logged⟩ := recalls
  exact ⟨name, parentClass, log, opened, logged.nodes, logged.pins.push pin, logged.hierarchy⟩

theorem Recalls.mapHierarchy {original current : Graph} (recalls : original.Recalls current)
    (change : ClassHierarchy → ClassHierarchy) :
    original.Recalls (current.mapHierarchy change) := by
  obtain ⟨name, parentClass, log, opened, logged⟩ := recalls
  exact ⟨name, parentClass,
    { log with hierarchy := some (log.hierarchy.getD current.hierarchy) },
    by simp only [Graph.mapHierarchy, recordHierarchy, opened, Option.map_some],
    logged.nodes, logged.pins, logged.hierarchy⟩

end Graph

namespace Edit

variable {original : Graph}

theorem keeps_query {α : Type} {property : Graph → Prop} (answer : Graph → Except Error α) :
    Keeps property (query answer) :=
  fun _ holds => holds

theorem modifyNode_recalls (id : NodeId) (change : Node → Node) :
    Keeps original.Recalls (modifyNode id change) := by
  refine (keeps_query _).bind fun _ => keeps_modify fun graph recalls => recalls.setNodes ?_ ?_
  · exact Array.size_modify ..
  · intro other different
    rw [Array.getElem?_modify, if_neg (Ne.symm different)]
    rfl

theorem modifyPin_recalls (id : PinId) (change : Pin → Pin) :
    Keeps original.Recalls (modifyPin id change) := by
  refine (keeps_query _).bind fun _ => keeps_modify fun graph recalls => recalls.setPins ?_ ?_
  · exact Array.size_modify ..
  · intro other different
    rw [Array.getElem?_modify, if_neg (Ne.symm different)]
    rfl

theorem addNode_recalls (kind : NodeKind) : Keeps original.Recalls (addNode kind) :=
  keeps_get.bind fun _ =>
    (keeps_modify fun _ recalls => recalls.pushNode _).bind fun _ => keeps_pure _

theorem addPin_recalls (node : NodeId) (direction : PinDirection) (pinType : PinType)
    (name : String) : Keeps original.Recalls (addPin node direction pinType name) := by
  refine (keeps_query _).bind fun found => ?_
  cases found with
  | some pin => exact keeps_throw _
  | none =>
      exact keeps_get.bind fun _ => (keeps_modify fun _ recalls => recalls.pushPin _).bind
        fun _ => (modifyNode_recalls _ _).bind fun _ => keeps_pure _

section ChangesOfPins

variable {property : Graph → Prop} (pinKept : ∀ id change, Keeps property (modifyPin id change))

include pinKept

theorem keeps_link (a b : PinId) : Keeps property (link a b) := by
  refine (keeps_query _).bind fun _ => (keeps_query _).bind fun pin => ?_
  split
  · exact keeps_pure _
  · exact (pinKept _ _).bind fun _ => pinKept _ _

theorem keeps_unlink (a b : PinId) : Keeps property (unlink a b) :=
  (pinKept _ _).bind fun _ => pinKept _ _

theorem keeps_unlinkPin (id : PinId) : Keeps property (unlinkPin id) :=
  (keeps_query _).bind fun _ => (pinKept _ _).bind fun _ => Keeps.forM (fun _ => pinKept _ _) _

end ChangesOfPins

theorem keeps_unlinkNode {property : Graph → Prop}
    (unlinkPinKept : ∀ id, Keeps property (unlinkPin id)) (id : NodeId) :
    Keeps property (unlinkNode id) :=
  (keeps_query _).bind fun _ => Keeps.forM unlinkPinKept _

theorem keeps_transferLinks {property : Graph → Prop}
    (unlinkKept : ∀ a b, Keeps property (unlink a b))
    (linkKept : ∀ a b, Keeps property (link a b)) (origin dest : PinId) :
    Keeps property (transferLinks origin dest) := by
  unfold transferLinks
  split
  · exact keeps_pure _
  · refine (keeps_query _).bind fun source => (keeps_query _).bind fun target => ?_
    split
    · exact Keeps.forM (fun far => (unlinkKept origin far).bind fun _ => linkKept dest far) _
    · exact keeps_throw _

theorem removePin_recalls (id : PinId) : Keeps original.Recalls (removePin id) := by
  refine (keeps_unlinkPin modifyPin_recalls _).bind fun _ => (keeps_query _).bind fun _ =>
    (modifyNode_recalls _ _).bind fun _ => keeps_modify fun graph recalls => recalls.setPins ?_ ?_
  · exact Array.size_setIfInBounds ..
  · intro other different
    exact Array.getElem?_setIfInBounds_ne (Ne.symm different)

end Edit

/-! What may happen to a graph while a checkpoint is open. -/

inductive GraphChange
  | addNode (kind : NodeKind)
  | addPin (node : NodeId) (direction : PinDirection) (pinType : PinType) (name : String)
  | removePin (pin : PinId)
  | modifyNode (node : NodeId) (change : Node → Node)
  | modifyPin (pin : PinId) (change : Pin → Pin)
  | link (a b : PinId)
  | unlink (a b : PinId)
  | unlinkPin (pin : PinId)
  | unlinkNode (node : NodeId)
  | transferLinks (origin dest : PinId)
  | mapHierarchy (change : ClassHierarchy → ClassHierarchy)

namespace GraphChange

def edit : GraphChange → Edit Unit
  | addNode kind => discard (Edit.addNode kind)
  | addPin node direction pinType name => discard (Edit.addPin node direction pinType name)
  | removePin pin => Edit.removePin pin
  | modifyNode node change => Edit.modifyNode node change
  | modifyPin pin change => Edit.modifyPin pin change
  | link a b => Edit.link a b
  | unlink a b => Edit.unlink a b
  | unlinkPin pin => Edit.unlinkPin pin
  | unlinkNode node => Edit.unlinkNode node
  | transferLinks origin dest => Edit.transferLinks origin dest
  | mapHierarchy change => modify (Graph.mapHierarchy change)

/-- What the change leaves, also where it fails. -/
def leaves (graph : Graph) (change : GraphChange) : Graph :=
  (change.edit.run graph).2

theorem edit_recalls {original : Graph} (change : GraphChange) :
    Keeps original.Recalls change.edit := by
  cases change with
  | addNode kind => exact (Edit.addNode_recalls kind).discard
  | addPin node direction pinType name =>
      exact (Edit.addPin_recalls node direction pinType name).discard
  | removePin pin => exact Edit.removePin_recalls pin
  | modifyNode node change => exact Edit.modifyNode_recalls node change
  | modifyPin pin change => exact Edit.modifyPin_recalls pin change
  | link a b => exact Edit.keeps_link Edit.modifyPin_recalls a b
  | unlink a b => exact Edit.keeps_unlink Edit.modifyPin_recalls a b
  | unlinkPin pin => exact Edit.keeps_unlinkPin Edit.modifyPin_recalls pin
  | unlinkNode node =>
      exact Edit.keeps_unlinkNode (Edit.keeps_unlinkPin Edit.modifyPin_recalls) node
  | transferLinks origin dest =>
      exact Edit.keeps_transferLinks (Edit.keeps_unlink Edit.modifyPin_recalls)
        (Edit.keeps_link Edit.modifyPin_recalls) origin dest
  | mapHierarchy change => exact keeps_modify fun _ recalls => recalls.mapHierarchy change

theorem recalls_foldl_leaves {original : Graph} (changes : List GraphChange) (graph : Graph)
    (recalls : original.Recalls graph) : original.Recalls (changes.foldl leaves graph) := by
  induction changes generalizing graph with
  | nil => exact recalls
  | cons change rest ih => exact ih _ (change.edit_recalls graph recalls)

end GraphChange

/-- Whatever happens after a checkpoint, the rollback gives back the graph as it was then, without
a checkpoint, and a second rollback does nothing. -/
theorem rollback_restores_checkpoint (graph : Graph) (changes : List GraphChange) :
    (changes.foldl GraphChange.leaves graph.checkpoint).rollback = (true, graph.commit) ∧
      graph.commit.rollback = (false, graph.commit) :=
  ⟨(GraphChange.recalls_foldl_leaves changes _ graph.recalls_checkpoint).rollback_eq, rfl⟩

end RigLowering
