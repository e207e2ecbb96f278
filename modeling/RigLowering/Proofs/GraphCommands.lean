import RigLowering.Proofs.CopyingPass
import RigLowering.Proofs.PinRemoval

namespace RigLowering

inductive StructuralEdit
  | addNode (kind : NodeKind)
  | addPin (node : NodeId) (direction : PinDirection) (pinType : PinType) (name : String)
  | removePin (pin : PinId)
  | link (a b : PinId)
  | unlink (a b : PinId)
  | unlinkPin (pin : PinId)
  | unlinkNode (node : NodeId)
  | transferLinks (origin dest : PinId)

namespace StructuralEdit

/-- None of these calls overwrites what a node or a pin is. -/
def change : StructuralEdit → GraphChange
  | addNode kind => .addNode kind
  | addPin node direction pinType name => .addPin node direction pinType name
  | removePin pin => .removePin pin
  | link a b => .link a b
  | unlink a b => .unlink a b
  | unlinkPin pin => .unlinkPin pin
  | unlinkNode node => .unlinkNode node
  | transferLinks origin dest => .transferLinks origin dest

theorem keeps_regular (call : StructuralEdit) : Keeps Graph.Regular call.change.edit := by
  cases call with
  | addNode kind => exact (Edit.addNode_keeps_regular kind).discard
  | addPin node direction pinType name =>
      exact (Edit.Composed.addPin node direction pinType name).keeps_regular.discard
  | removePin pin => exact Edit.removePin_keeps_regular pin
  | link a b => exact Edit.link_keeps_regular a b
  | unlink a b => exact Edit.unlink_keeps_regular a b
  | unlinkPin pin => exact Edit.unlinkPin_keeps_regular pin
  | unlinkNode node => exact (Edit.Composed.unlinkNode node).keeps_regular
  | transferLinks origin dest => exact (Edit.Composed.transferLinks origin dest).keeps_regular

theorem commutes (call : StructuralEdit) : Commutes Graph.commit call.change.edit := by
  cases call with
  | addNode kind => exact fun _ => rfl
  | addPin node direction pinType name =>
      exact (Edit.addPin_commutes node direction pinType name).bind fun _ => commutes_pure _
  | removePin pin =>
      exact (Edit.Composed.unlinkPin pin).commutes.bind fun _ =>
        (Edit.Composed.pin pin).commutes.bind fun _ =>
          (Edit.modifyNode_commutes _ _).bind fun _ _ => rfl
  | link a b => exact (Edit.Composed.link a b).commutes
  | unlink a b => exact (Edit.Composed.unlink a b).commutes
  | unlinkPin pin => exact (Edit.Composed.unlinkPin pin).commutes
  | unlinkNode node => exact (Edit.Composed.unlinkNode node).commutes
  | transferLinks origin dest => exact (Edit.Composed.transferLinks origin dest).commutes

end StructuralEdit

/-! What may be asked of a graph over its life.  A call that fails leaves what it has done. -/

inductive GraphCommand
  | edit (call : StructuralEdit)
  | registerClass (name parent : String)
  | mergeHierarchy (other : ClassHierarchy)
  | checkpoint
  | commit
  | rollback

namespace GraphCommand

def apply (graph : Graph) : GraphCommand → Graph
  | edit call => call.change.leaves graph
  | registerClass name parent => graph.mapHierarchy (·.register name parent)
  | mergeHierarchy other => graph.mapHierarchy (·.merge other)
  | checkpoint => graph.checkpoint
  | commit => graph.commit
  | rollback => graph.rollback.2

end GraphCommand

namespace Graph

theorem empty_regular (name : String) (parentClass : Option String) :
    (empty name parentClass).Regular where
  nodeId := fun found => by cases found
  faceId := fun found => by cases found
  listed := fun found => by cases found
  owned := fun found => by cases found
  linked := fun found => by cases found
  pinsNodup := fun found => by cases found
  linksNodup := fun _ => .nil
  namesUnique := fun found => by cases found

theorem Regular.commit {graph : Graph} (regular : graph.Regular) : graph.commit.Regular :=
  regular.of_roster (fun _ => rfl) (fun _ => rfl) fun _ => rfl

theorem Regular.checkpoint {graph : Graph} (regular : graph.Regular) : graph.checkpoint.Regular :=
  regular.of_roster (fun _ => rfl) (fun _ => rfl) fun _ => rfl

theorem Regular.mapHierarchy {graph : Graph} (regular : graph.Regular)
    (change : ClassHierarchy → ClassHierarchy) : (graph.mapHierarchy change).Regular :=
  regular.of_roster (fun _ => rfl) (fun _ => rfl) fun _ => rfl

/-- The graph is regular, and if a checkpoint is open the graph of the checkpoint was. -/
structure Safeguarded (graph : Graph) : Prop where
  regular : graph.Regular
  origin : graph.undo = none ∨ ∃ original : Graph, original.Regular ∧ original.Recalls graph

/-- What does the same with and without a checkpoint opens none. -/
theorem undo_eq_none_of_commutes {α : Type} {edit : Edit α} (commutes : Commutes commit edit)
    {graph : Graph} (closed : graph.undo = none) : (edit graph).2.undo = none := by
  have committed : graph.commit = graph := by rw [commit, ← closed]
  have same := commutes graph
  rw [committed] at same
  exact congrArg (·.2.undo) same

theorem Safeguarded.mapHierarchy {graph : Graph} (safe : graph.Safeguarded)
    (change : ClassHierarchy → ClassHierarchy) : (graph.mapHierarchy change).Safeguarded where
  regular := safe.regular.mapHierarchy change
  origin := by
    rcases safe.origin with closed | ⟨original, regular, recalls⟩
    · left
      change graph.undo.map _ = none
      rw [closed]
      rfl
    · exact .inr ⟨original, regular, recalls.mapHierarchy change⟩

theorem Safeguarded.leaves {graph : Graph} (safe : graph.Safeguarded) (call : StructuralEdit) :
    (call.change.leaves graph).Safeguarded where
  regular := call.keeps_regular graph safe.regular
  origin := by
    rcases safe.origin with closed | ⟨original, regular, recalls⟩
    · exact .inl (undo_eq_none_of_commutes call.commutes closed)
    · exact .inr ⟨original, regular, call.change.edit_recalls graph recalls⟩

theorem Safeguarded.rollback {graph : Graph} (safe : graph.Safeguarded) :
    graph.rollback.2.Safeguarded := by
  rcases safe.origin with closed | ⟨original, regular, recalls⟩
  · rw [Graph.rollback, closed]
    exact safe
  · rw [recalls.rollback_eq]
    exact ⟨regular.commit, .inl rfl⟩

theorem Safeguarded.apply {graph : Graph} (safe : graph.Safeguarded) (command : GraphCommand) :
    (command.apply graph).Safeguarded := by
  cases command with
  | edit call => exact safe.leaves call
  | registerClass name parent => exact safe.mapHierarchy (·.register name parent)
  | mergeHierarchy other => exact safe.mapHierarchy (·.merge other)
  | checkpoint =>
      exact ⟨safe.regular.checkpoint, .inr ⟨graph, safe.regular, graph.recalls_checkpoint⟩⟩
  | commit => exact ⟨safe.regular.commit, .inl rfl⟩
  | rollback => exact safe.rollback

theorem Safeguarded.foldl_apply {graph : Graph} (safe : graph.Safeguarded)
    (commands : List GraphCommand) : (commands.foldl GraphCommand.apply graph).Safeguarded := by
  induction commands generalizing graph with
  | nil => exact safe
  | cons command rest ih => exact ih (safe.apply command)

/-- Whatever is done to a graph from its making on, it is well-formed at every moment. -/
theorem wellFormed_of_commands (name : String) (parentClass : Option String)
    (commands : List GraphCommand) :
    (commands.foldl GraphCommand.apply (empty name parentClass)).WellFormed := by
  have start : (empty name parentClass).Safeguarded := ⟨empty_regular name parentClass, .inl rfl⟩
  exact wellFormed_iff_regular.mpr (start.foldl_apply commands).regular

end Graph

end RigLowering
