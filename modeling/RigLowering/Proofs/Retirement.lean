import RigLowering.Proofs.EvaluatorCensus

namespace RigLowering

namespace Graph

/-- The evaluator has lost its links and counts as expanded.  All else is as it was, but for the
links of what was linked to it. -/
structure Retired (evaluator : NodeId) (before after : Graph) : Prop where
  regular : after.Regular
  nodeIds : after.nodeIds = before.nodeIds
  pinCount : after.pins.size = before.pins.size
  node : ∀ id, after.node? id = if evaluator = id then
    (before.node? id).map (·.mapSettings EvaluatorSettings.markInert) else before.node? id
  face : ∀ id, after.face? id = before.face? id
  literals : ∀ id, after.literals id = before.literals id
  unlinked : ∀ {id}, before.Owns evaluator id → after.links id = []
  others : ∀ {id}, ¬ before.Owns evaluator id →
    (∀ far ∈ before.links id, ¬ before.Owns evaluator far) → after.links id = before.links id

section Retired

variable {base before after : Graph} {evaluator : NodeId}

theorem Retired.nodeCount (retired : Retired evaluator before after) :
    after.nodes.size = before.nodes.size := by
  rw [← length_nodeIds, retired.nodeIds, length_nodeIds]

theorem Retired.extended (retired : Retired evaluator before after) : before.Extends after where
  nodeCount := Nat.le_of_eq retired.nodeCount.symm
  pinCount := Nat.le_of_eq retired.pinCount.symm
  node := by
    intro id data found
    rw [retired.node, found]
    split
    · exact ⟨_, EvaluatorSettings.markInert, rfl, rfl, rfl⟩
    · exact ⟨_, fun settings => settings, rfl, rfl, (NodeKind.mapSettings_id _).symm⟩
  face := fun _ => retired.face _

/-- What has been added is linked to nothing of the evaluator, or loses no more than that. -/
theorem Retired.retainsOrder (retired : Retired evaluator before after)
    (old : evaluator.index < base.nodes.size) : RetainsOrder base before after := by
  have kept {id : PinId} (added : Added base before id)
      (fars : ∀ far ∈ before.links id, Added base before far) :
      after.links id = before.links id :=
    retired.others (added.not_owns old) fun far member => (fars far member).not_owns old
  exact {
    extended := retired.extended
    links := fun found new _ fars => kept ⟨_, found, new⟩ fars
    literals := fun _ _ => retired.literals _
    order := fun gives fars => kept gives.added fars }

end Retired

end Graph

namespace Edit

open RigLowering.Graph

variable {evaluator : NodeId} {before middle after : Graph}

theorem unlinkNode_keeps_literals {literals : PinId → Option String × Option String}
    (node : NodeId) : Keeps (·.literals = literals) (unlinkNode node) :=
  (keeps_query _).bind fun _ => Keeps.forM (fun _ => unlinkPin_keeps_literals _) _

theorem retired_of_unlinkNode (regular : before.Regular)
    (unlinking : Yields (unlinkNode evaluator) before () middle)
    (marking : Yields (modifyNode evaluator (·.mapSettings EvaluatorSettings.markInert)) middle ()
      after) : Retired evaluator before after := by
  obtain ⟨frame, unlinked, others⟩ := unlinkNode_lists regular.toSound unlinking
  have middleRegular := (Composed.unlinkNode evaluator).keeps_regular.holds_after unlinking regular
  have literals := (unlinkNode_keeps_literals evaluator).holds_after unlinking
    (rfl : before.literals = _)
  unfold Yields at marking
  rcases changeSettings_cases evaluator EvaluatorSettings.markInert middle with
    ⟨_, failed⟩ | done
  · exact (nomatch failed.symm.trans marking)
  · cases done.symm.trans marking
    have nodeIds : (middle.changeNode evaluator
        (·.mapSettings EvaluatorSettings.markInert)).nodeIds = middle.nodeIds :=
      middle.nodeIds_changeNode evaluator fun _ => rfl
    exact {
      regular := middleRegular.withSettings evaluator _
      nodeIds := nodeIds.trans frame.nodeIds_eq
      pinCount := frame.pinCount
      node := by
        intro id
        rw [node?_changeNode, frame.node]
      face := frame.face
      literals := fun id => congrFun literals id
      unlinked := fun owned => unlinked _ owned
      others := fun foreign fars => others _ foreign fars }

end Edit

end RigLowering
