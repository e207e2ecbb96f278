import RigLowering.Proofs.Growth
import RigLowering.Proofs.Rollback

namespace RigLowering

namespace Node

theorem mem_pins_unlistPin_iff {node : Node} {id pin : PinId} :
    pin ∈ (node.unlistPin id).pins ↔ pin ∈ node.pins ∧ pin ≠ id := by
  simp [unlistPin]

theorem unlistPin_eq_self {node : Node} {id : PinId} (unlisted : id ∉ node.pins) :
    node.unlistPin id = node := by
  unfold unlistPin
  rw [List.filter_eq_self.mpr]
  intro pin member
  simp only [decide_eq_true_eq]
  rintro rfl
  exact unlisted member

/-- The node without any of the pins. -/
def unlistPins (node : Node) (ids : List PinId) : Node :=
  { node with pins := node.pins.filter (· ∉ ids) }

theorem unlistPins_eq_self {node : Node} {ids : List PinId}
    (unlisted : ∀ id ∈ ids, id ∉ node.pins) : node.unlistPins ids = node := by
  unfold unlistPins
  rw [List.filter_eq_self.mpr]
  intro pin listed
  simp only [decide_eq_true_eq]
  exact fun member => unlisted pin member listed

end Node

theorem PinId.filter_filter_cons (pins : List PinId) (id : PinId) (ids : List PinId) :
    (pins.filter (· ≠ id)).filter (· ∉ ids) = pins.filter (· ∉ id :: ids) := by
  rw [List.filter_filter]
  apply List.filter_congr
  intro pin _
  simp [Bool.and_comm]

namespace Graph

def pushNode (graph : Graph) (kind : NodeKind) : Graph :=
  { graph with nodes := graph.nodes.push ⟨⟨graph.nodes.size⟩, kind, [], none⟩ }

theorem node?_pushNode (graph : Graph) (kind : NodeKind) (id : NodeId) :
    (graph.pushNode kind).node? id =
      if id.index = graph.nodes.size then some ⟨⟨graph.nodes.size⟩, kind, [], none⟩
      else graph.node? id :=
  Array.getElem?_push

/-- Where the node comes from is no matter to its pins. -/
private theorem roster_pushNode (graph : Graph) (kind : NodeKind) (source id : NodeId) :
    (graph.pushNode kind).roster id = (graph.withNode kind source).roster id :=
  (@roster_changeNode (graph.pushNode kind) ⟨graph.nodes.size⟩ id
    (fun node => { node with spawnedBy := some source }) (fun _ => rfl) fun _ => rfl).symm

theorem Sound.pushNode {graph : Graph} (sound : graph.Sound) (kind : NodeKind) :
    (graph.pushNode kind).Sound :=
  (sound.withNode kind ⟨0⟩).of_roster (graph.roster_pushNode kind ⟨0⟩) (fun _ => rfl) fun _ => rfl

theorem Regular.pushNode {graph : Graph} (regular : graph.Regular) (kind : NodeKind) :
    (graph.pushNode kind).Regular :=
  (regular.withNode kind ⟨0⟩).of_roster (graph.roster_pushNode kind ⟨0⟩) (fun _ => rfl)
    fun _ => rfl

/-- In `after` the pin is gone from its place, from its node and from its far ends. -/
structure Removed (before after : Graph) (id : PinId) : Prop where
  node : ∀ other, after.node? other = (before.node? other).map (·.unlistPin id)
  face : ∀ other, after.face? other = if other = id then none else before.face? other
  links : ∀ other, after.links other =
    if other = id then [] else (before.links other).filter (· ≠ id)

section Removed

variable {before after : Graph} {id : PinId}

theorem Removed.face?_eq_some_iff (removed : before.Removed after id) {other : PinId}
    {face : PinFace} :
    after.face? other = some face ↔ other ≠ id ∧ before.face? other = some face := by
  rw [removed.face]
  split
  · next same => simp [same]
  · next different => simp [different]

theorem Removed.mem_links_iff (removed : before.Removed after id) {other far : PinId} :
    far ∈ after.links other ↔ far ∈ before.links other ∧ other ≠ id ∧ far ≠ id :=
  Edit.mem_links_of_unlinked removed.links

/-- A node that does not own the pin is as it was. -/
theorem Removed.node?_eq (removed : before.Removed after id) (sound : before.Sound) {other : NodeId}
    (foreign : ¬ before.Owns other id) : after.node? other = before.node? other := by
  rw [removed.node]
  cases found : before.node? other with
  | none => rfl
  | some data =>
      exact congrArg some (Node.unlistPin_eq_self fun listed => foreign (sound.listed found listed))

theorem Sound.removed (sound : before.Sound) (removed : before.Removed after id) :
    after.Sound where
  nodeId := by
    intro other node found
    rw [removed.node] at found
    obtain ⟨earlier, earlierFound, rfl⟩ := Option.map_eq_some_iff.mp found
    exact (sound.nodeId earlierFound : earlier.id = other)
  faceId := fun found => sound.faceId (removed.face?_eq_some_iff.mp found).2
  listed := by
    intro other node pin found member
    rw [removed.node] at found
    obtain ⟨earlier, earlierFound, rfl⟩ := Option.map_eq_some_iff.mp found
    obtain ⟨listed, different⟩ := Node.mem_pins_unlistPin_iff.mp member
    obtain ⟨face, faceFound, owner⟩ := sound.listed earlierFound listed
    exact ⟨face, removed.face?_eq_some_iff.mpr ⟨different, faceFound⟩, owner⟩
  owned := by
    intro other face found
    obtain ⟨different, faceFound⟩ := removed.face?_eq_some_iff.mp found
    obtain ⟨owner, ownerFound, member⟩ := sound.owned faceFound
    refine ⟨owner.unlistPin id, ?_, Node.mem_pins_unlistPin_iff.mpr ⟨member, different⟩⟩
    rw [removed.node, ownerFound]
    rfl
  linked := by
    intro other far face found member
    obtain ⟨different, faceFound⟩ := removed.face?_eq_some_iff.mp found
    obtain ⟨old, _, farDifferent⟩ := removed.mem_links_iff.mp member
    obtain ⟨farFace, farFound, back, direction, owner⟩ := sound.linked faceFound old
    exact ⟨farFace, removed.face?_eq_some_iff.mpr ⟨farDifferent, farFound⟩,
      removed.mem_links_iff.mpr ⟨back, farDifferent, different⟩, direction, owner⟩

theorem Regular.removed (regular : before.Regular) (removed : before.Removed after id) :
    after.Regular where
  toSound := regular.toSound.removed removed
  pinsNodup := by
    intro other node found
    rw [removed.node] at found
    obtain ⟨earlier, earlierFound, rfl⟩ := Option.map_eq_some_iff.mp found
    exact (regular.pinsNodup earlierFound).filter _
  linksNodup := by
    intro other
    rw [removed.links]
    split
    · exact List.nodup_nil
    · exact (regular.linksNodup other).filter _
  namesUnique := fun first second =>
    regular.namesUnique (removed.face?_eq_some_iff.mp first).2
      (removed.face?_eq_some_iff.mp second).2

end Removed

/-- In `after` all of the pins are gone from their places, nodes and far ends. -/
structure Cleared (before after : Graph) (ids : List PinId) : Prop where
  node : ∀ other, after.node? other = (before.node? other).map (·.unlistPins ids)
  face : ∀ other, after.face? other = if other ∈ ids then none else before.face? other
  links : ∀ other, after.links other =
    if other ∈ ids then [] else (before.links other).filter (· ∉ ids)

theorem Cleared.refl (graph : Graph) : graph.Cleared graph [] where
  node := by
    intro other
    have same : (·.unlistPins []) = @id Node :=
      funext fun node => Node.unlistPins_eq_self (by simp)
    rw [same, Option.map_id, id_eq]
  face := fun other => by simp
  links := by
    intro other
    rw [if_neg List.not_mem_nil, List.filter_eq_self.mpr (by simp)]

section Cleared

variable {before middle after : Graph} {id : PinId} {ids : List PinId}

theorem Removed.cleared (removed : before.Removed middle id) (cleared : middle.Cleared after ids) :
    before.Cleared after (id :: ids) where
  node := by
    intro other
    rw [cleared.node, removed.node, Option.map_map]
    refine congrArg (Option.map · _) (funext fun node => ?_)
    exact congrArg (fun pins => { node with pins }) (PinId.filter_filter_cons node.pins id ids)
  face := by
    intro other
    rw [cleared.face, removed.face]
    by_cases same : other = id
    · simp [same]
    · simp [same]
  links := by
    intro other
    rw [cleared.links, removed.links]
    by_cases same : other = id
    · simp [same]
    · rw [if_neg same, PinId.filter_filter_cons]
      simp [same]

/-- A node that owns none of the pins is as it was. -/
theorem Cleared.node?_eq (cleared : before.Cleared after ids) (sound : before.Sound)
    {other : NodeId} (foreign : ∀ id ∈ ids, ¬ before.Owns other id) :
    after.node? other = before.node? other := by
  rw [cleared.node]
  cases found : before.node? other with
  | none => rfl
  | some node =>
      exact congrArg some (Node.unlistPins_eq_self fun id member listed =>
        foreign id member (sound.listed found listed))

/-- No node has pins that are gone. -/
theorem Cleared.pins_eq_nil {graph : Graph} {node : NodeId} {data : Node}
    (cleared : graph.Cleared graph data.pins) (found : graph.node? node = some data) :
    data.pins = [] := by
  have same := cleared.node node
  rw [found, Option.map_some] at same
  have emptied : data.pins = data.pins.filter (· ∉ data.pins) :=
    congrArg Node.pins (Option.some.inj same)
  rw [emptied]
  simp

end Cleared

/-- The graph where the place of the pin is empty and its node no longer lists it. -/
def vacate (graph : Graph) (id : PinId) (owner : NodeId) : Graph :=
  let graph := graph.changeNode owner (·.unlistPin id)
  { graph.recordPin id with pins := graph.pins.setIfInBounds id.index none }

theorem pin?_vacate (graph : Graph) (id other : PinId) (owner : NodeId) :
    (graph.vacate id owner).pin? other = if other = id then none else graph.pin? other := by
  change (graph.pins.setIfInBounds id.index none)[other.index]?.join = _
  rw [Array.getElem?_setIfInBounds]
  by_cases same : id.index = other.index
  · have equal : other = id := by
      cases id
      cases other
      exact congrArg PinId.mk same.symm
    rw [if_pos same, if_pos equal]
    split
    · rfl
    · rfl
  · have different : other ≠ id := fun equal => same (congrArg PinId.index equal.symm)
    rw [if_neg same, if_neg different]
    rfl

/-- Only its owner lists a pin, so that all other nodes are as they were. -/
theorem Sound.node?_vacate {graph : Graph} (sound : graph.Sound) {id : PinId} {face : PinFace}
    (found : graph.face? id = some face) (other : NodeId) :
    (graph.vacate id face.owner).node? other = (graph.node? other).map (·.unlistPin id) := by
  change (graph.changeNode face.owner (·.unlistPin id)).node? other = _
  rw [node?_changeNode]
  split
  · rfl
  · next different =>
      cases otherFound : graph.node? other with
      | none => rfl
      | some node =>
          have unlisted : id ∉ node.pins := by
            intro member
            obtain ⟨listedFace, listedFound, owner⟩ := sound.listed otherFound member
            rw [found] at listedFound
            cases listedFound
            exact different owner
          exact congrArg some (Node.unlistPin_eq_self unlisted).symm

/-- Once a pin has no links left, vacating its place takes it out of the graph. -/
theorem SameFrame.removed_vacate {before middle : Graph} (frame : before.SameFrame middle)
    (sound : middle.Sound) {id : PinId} {face : PinFace} (found : middle.face? id = some face)
    (links : ∀ other, middle.links other =
      if other = id then [] else (before.links other).filter (· ≠ id)) :
    before.Removed (middle.vacate id face.owner) id where
  node := by
    intro other
    rw [sound.node?_vacate found, frame.node]
  face := by
    intro other
    rw [face?, pin?_vacate, ← frame.face]
    split
    · rfl
    · rfl
  links := by
    intro other
    rw [Graph.links, pin?_vacate]
    have unlinked := links other
    split
    · rfl
    · next different =>
        rw [if_neg different] at unlinked
        exact unlinked

end Graph

namespace Edit

open RigLowering.Graph

theorem addNode_apply (kind : NodeKind) (graph : Graph) :
    addNode kind graph = (.ok ⟨graph.nodes.size⟩, graph.pushNode kind) := rfl

theorem addNode_keeps_regular (kind : NodeKind) : Keeps Regular (addNode kind) :=
  fun _ regular => regular.pushNode kind

/-- A pin that is there can always be removed. -/
theorem removePin_cases {graph : Graph} (sound : graph.Sound) (id : PinId) :
    (∃ error, graph.face? id = none ∧ removePin id graph = (.error error, graph)) ∨
      ∃ after, removePin id graph = (.ok (), after) ∧ graph.Removed after id := by
  unfold removePin
  rw [bind_apply]
  rcases unlinkPin_cases sound id with
    ⟨error, absent, failed⟩ | ⟨face, middle, found, unlinked, frame, links⟩
  · rw [failed]
    exact .inl ⟨error, absent, rfl⟩
  right
  have middleSound := (unlinkPin_keeps_sound id).holds_after unlinked sound
  have middleFound := (frame.face id).trans found
  obtain ⟨pin, live, same, _⟩ := exists_pin?_of_face? middleFound
  obtain ⟨owner, ownerFound, _⟩ := middleSound.owned middleFound
  subst same
  refine ⟨middle.vacate id pin.owner, ?_, ?_⟩
  · rw [unlinked]
    simp only
    rw [bind_apply, pin_apply, Graph.pin, live]
    simp only
    rw [bind_apply, modifyNode_apply, show middle.node? pin.owner = some owner from ownerFound]
    rfl
  · exact frame.removed_vacate middleSound middleFound links

theorem removePin_keeps_regular (id : PinId) : Keeps Regular (removePin id) := by
  intro graph regular
  rcases removePin_cases regular.toSound id with ⟨_, _, failed⟩ | ⟨after, done, removed⟩
  · rw [failed]
    exact regular
  · rw [done]
    exact regular.removed removed

theorem removePin_keeps_pinCount {count : Nat} (id : PinId) :
    Keeps (·.pins.size = count) (removePin id) := by
  have pinKept (id : PinId) (change : Pin → Pin) :
      Keeps (·.pins.size = count) (modifyPin id change) :=
    (keeps_query _).bind fun _ => keeps_modify fun _ same => (Array.size_modify ..).trans same
  have nodeKept (id : NodeId) (change : Node → Node) :
      Keeps (·.pins.size = count) (modifyNode id change) :=
    (keeps_query _).bind fun _ => keeps_modify fun _ same => same
  exact (keeps_unlinkPin pinKept id).bind fun _ => (keeps_query _).bind fun _ =>
    (nodeKept _ _).bind fun _ => keeps_modify fun _ same => (Array.size_setIfInBounds ..).trans same

end Edit

end RigLowering
