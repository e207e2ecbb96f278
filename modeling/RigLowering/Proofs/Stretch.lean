import RigLowering.Proofs.Footprint

namespace RigLowering

namespace Graph

/-- The pins that an expansion from `base` on may relink as it moves the links of `moved`: these
pins and their far ends, and of the pins that it has made the outputs of values.  Of the outputs
that execution goes on from only those are that are `spliced`. -/
def Loose (base graph : Graph) (moved spliced : List PinId) (id : PinId) : Prop :=
  id.index < base.pins.size ∧ (id ∈ moved ∨ ∃ origin ∈ moved, id ∈ base.links origin) ∨
    base.pins.size ≤ id.index ∧ (id ∈ spliced ∨
      ∃ face, graph.face? id = some face ∧ face.direction = .output ∧ ¬ face.pinType.isExec)

/-! A stretch of an expansion that began at `base`.  It makes the nodes `made`, moves the links of
the pins `moved`, and gives no pin that was there before it another literal. -/

structure Stretch (base : Graph) (moved spliced : List PinId) (made : List NodeId)
    (before after : Graph) : Prop
    extends Footprint made (Loose base before moved spliced) (fun _ => False) before after where
  sound : base.Sound
  begun : base.Extends before

section Stretch

variable {base before middle after : Graph} {moved further spliced onward : List PinId}
  {made others : List NodeId} {source node : NodeId} {kind : NodeKind} {pinType : PinType}
  {id : PinId} {face : PinFace}

/-- What has been made since `before` has been made since `base`. -/
theorem Spawned.since (spawned : Spawned before after source kind node)
    (begun : base.Extends before) : Spawned base after source kind node :=
  ⟨Nat.le_trans begun.nodeCount spawned.added, spawned.found⟩

theorem Loose.mono (loose : Loose base before moved spliced id)
    (moves : ∀ pin ∈ moved, pin ∈ further) (splices : ∀ pin ∈ spliced, pin ∈ onward) :
    Loose base before further onward id := by
  obtain ⟨old, member | ⟨origin, member, linked⟩⟩ | ⟨new, member | output⟩ := loose
  · exact .inl ⟨old, .inl (moves _ member)⟩
  · exact .inl ⟨old, .inr ⟨origin, moves _ member, linked⟩⟩
  · exact .inr ⟨new, .inl (splices _ member)⟩
  · exact .inr ⟨new, .inr output⟩

theorem Loose.of_gives (gives : Gives base before pinType id) (sound : base.Sound)
    (begun : base.Extends before) (value : pinType.isExec = false) :
    Loose base before moved spliced id := by
  obtain ⟨face, found, owner, direction, rfl⟩ := gives
  have new := Added.pinCount_le ⟨face, found, owner⟩ sound begun
  exact .inr ⟨new, .inr ⟨face, found, direction, Bool.eq_false_iff.mp value⟩⟩

theorem Stretch.refl (sound : base.Sound) (begun : base.Extends before)
    (regular : before.Regular) : Stretch base [] [] [] before before where
  toFootprint := (Footprint.refl regular).widen
  sound := sound
  begun := begun

theorem Stretch.mono (stretch : Stretch base moved spliced made before after)
    (moves : ∀ pin ∈ moved, pin ∈ further) (splices : ∀ pin ∈ spliced, pin ∈ onward) :
    Stretch base further onward made before after where
  toFootprint := stretch.toFootprint.mono (fun _ loose => loose.mono moves splices) fun _ => id
  sound := stretch.sound
  begun := stretch.begun

/-- Where execution goes on from a pin of the first stretch it may be spliced in the second. -/
theorem Stretch.trans (first : Stretch base moved spliced made before middle)
    (second : Stretch base further onward others middle after)
    (inner : ∀ pin ∈ onward, pin.index < before.pins.size → pin ∈ spliced) :
    Stretch base (moved ++ further) spliced (made ++ others) before after where
  toFootprint := by
    have widened := first.mono (fun _ => List.mem_append_left further) fun _ => id
    refine widened.toFootprint.trans second.toFootprint ?_ fun _ => id
    rintro id old (⟨pinOld, member | ⟨origin, member, linked⟩⟩ | ⟨new, member | output⟩)
    · exact .inl ⟨pinOld, .inl (List.mem_append_right _ member)⟩
    · exact .inl ⟨pinOld, .inr ⟨origin, List.mem_append_right _ member, linked⟩⟩
    · exact .inr ⟨new, .inl (inner id member old)⟩
    · rw [first.face old] at output
      exact .inr ⟨new, .inr output⟩
  sound := first.sound
  begun := first.begun

theorem Stretch.of_makes {specs : List PinSpec}
    (makes : Makes source kind specs node before after) (sound : base.Sound)
    (begun : base.Extends before) : Stretch base [] [] [node] before after where
  toFootprint := makes.widen
  sound := sound
  begun := begun

/-- A step that makes no nodes, and does to older pins what the stretch may. -/
theorem Stretch.andThen {relinked relit : PinId → Prop}
    (stretch : Stretch base moved spliced made before middle)
    (footprint : Footprint [] relinked relit middle after)
    (links : ∀ {id}, id.index < before.pins.size → relinked id →
      Loose base before moved spliced id)
    (literals : ∀ {id}, id.index < before.pins.size → ¬ relit id) :
    Stretch base moved spliced made before after where
  toFootprint := stretch.toFootprint.andThen footprint links literals
  sound := stretch.sound
  begun := stretch.begun

theorem Stretch.extends_base (stretch : Stretch base moved spliced made before after) :
    base.Extends after :=
  stretch.begun.trans stretch.extended

theorem Stretch.links_base (stretch : Stretch base moved spliced made before after)
    (old : id.index < base.pins.size) (unmoved : id ∉ moved)
    (apart : ∀ origin ∈ moved, id ∉ base.links origin) : after.links id = before.links id := by
  apply stretch.links (Nat.lt_of_lt_of_le old stretch.begun.pinCount)
  rintro (⟨_, member | ⟨origin, member, linked⟩⟩ | ⟨new, _⟩)
  · exact unmoved member
  · exact apart origin member linked
  · exact Nat.not_lt_of_le new old

theorem Stretch.links_input (stretch : Stretch base moved spliced made before after)
    (found : before.face? id = some face) (new : base.nodes.size ≤ face.owner.index)
    (input : face.direction = .input) (aside : id ∉ spliced) :
    after.links id = before.links id := by
  have pinNew := Added.pinCount_le ⟨face, found, new⟩ stretch.sound stretch.begun
  apply stretch.links (lt_size_of_face? found)
  rintro (⟨old, _⟩ | ⟨_, member | ⟨other, otherFound, output, _⟩⟩)
  · exact Nat.not_lt_of_le pinNew old
  · exact aside member
  · rw [found] at otherFound
    cases otherFound
    exact nomatch input.symm.trans output

theorem Stretch.links_exec (stretch : Stretch base moved spliced made before after)
    (found : before.face? id = some face) (new : base.nodes.size ≤ face.owner.index)
    (exec : face.pinType.isExec) (aside : id ∉ spliced) : after.links id = before.links id := by
  have pinNew := Added.pinCount_le ⟨face, found, new⟩ stretch.sound stretch.begun
  apply stretch.links (lt_size_of_face? found)
  rintro (⟨old, _⟩ | ⟨_, member | ⟨other, otherFound, _, value⟩⟩)
  · exact Nat.not_lt_of_le pinNew old
  · exact aside member
  · rw [found] at otherFound
    cases otherFound
    exact value exec

end Stretch

end Graph

end RigLowering
