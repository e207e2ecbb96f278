import RigLowering.Proofs.LinkLists
import RigLowering.Proofs.Lowering

namespace RigLowering

namespace Graph

def nodeIds (graph : Graph) : List NodeId :=
  graph.nodes.toList.map (·.id)

/-- What an input stands for while nothing is linked to it. -/
def literals (graph : Graph) (id : PinId) : Option String × Option String :=
  ((graph.pin? id).map fun pin => (pin.defaultValue, pin.defaultObject)).getD (none, none)

theorem literals_of_pin? {graph : Graph} {id : PinId} {pin : Pin}
    (live : graph.pin? id = some pin) :
    graph.literals id = (pin.defaultValue, pin.defaultObject) := by
  simp [literals, live]

/-- Its face, its literals and its links are all there is to a pin. -/
theorem pin?_of_face? {graph : Graph} {id : PinId} {pin : Pin}
    (found : graph.face? id = some pin.face)
    (literals : graph.literals id = (pin.defaultValue, pin.defaultObject)) :
    graph.pin? id = some { pin with links := graph.links id } := by
  obtain ⟨other, live, face, links⟩ := exists_pin?_of_face? found
  rw [literals_of_pin? live] at literals
  rw [live, ← links]
  cases pin
  cases other
  simp only [Pin.face, PinFace.mk.injEq, Prod.mk.injEq] at face literals
  obtain ⟨rfl, rfl, rfl, rfl, rfl⟩ := face
  obtain ⟨rfl, rfl⟩ := literals
  rfl

/-- A pin is its face, its links and its literals. -/
theorem pin?_congr {before after : Graph} {id : PinId} (face : after.face? id = before.face? id)
    (links : after.links id = before.links id)
    (literals : after.literals id = before.literals id) : after.pin? id = before.pin? id := by
  cases live : before.pin? id with
  | none =>
      rw [face?, face?, live] at face
      exact Option.map_eq_none_iff.mp face
  | some pin =>
      rw [pin?_of_face? (face.trans (face?_of_pin? live))
        (literals.trans (literals_of_pin? live)), links, links_of_pin? live]

theorem links_of_absent {graph : Graph} {id : PinId} (absent : graph.pins.size ≤ id.index) :
    graph.links id = [] := by
  simp [links, pin?, Array.getElem?_eq_none absent]

theorem literals_changePin (graph : Graph) (id other : PinId) {change : Pin → Pin}
    (keeps : ∀ pin, (change pin).defaultValue = pin.defaultValue ∧
      (change pin).defaultObject = pin.defaultObject) :
    (graph.changePin id change).literals other = graph.literals other := by
  unfold literals
  rw [pin?_changePin]
  split
  · rw [Option.map_map]
    congr 2
    funext pin
    exact Prod.ext (keeps pin).1 (keeps pin).2
  · rfl

theorem literals_changePin_of_ne (graph : Graph) {id other : PinId} (change : Pin → Pin)
    (different : id ≠ other) :
    (graph.changePin id change).literals other = graph.literals other := by
  unfold literals
  rw [pin?_changePin, if_neg different]

theorem nodeIds_changeNode (graph : Graph) (id : NodeId) {change : Node → Node}
    (keeps : ∀ node, (change node).id = node.id) :
    (graph.changeNode id change).nodeIds = graph.nodeIds := by
  apply List.ext_getElem?
  intro index
  have found : (graph.changeNode id change).nodes[index]? =
      if id = ⟨index⟩ then graph.nodes[index]?.map change else graph.nodes[index]? :=
    graph.node?_changeNode id ⟨index⟩ change
  simp only [nodeIds, List.getElem?_map, Array.getElem?_toList]
  rw [found]
  split
  · rw [Option.map_map]
    congr 1
    funext node
    exact keeps node
  · rfl

theorem nodeIds_withNode (graph : Graph) (kind : NodeKind) (source : NodeId) :
    (graph.withNode kind source).nodeIds = graph.nodeIds ++ [⟨graph.nodes.size⟩] := by
  refine (nodeIds_changeNode _ _ fun _ => ?_).trans ?_
  · rfl
  · simp [nodeIds]

theorem nodeIds_withPin (graph : Graph) (node : NodeId) (direction : PinDirection)
    (pinType : PinType) (name : String) :
    (graph.withPin node direction pinType name).nodeIds = graph.nodeIds :=
  nodeIds_changeNode _ _ fun _ => rfl

theorem SameFrame.nodeIds_eq {before after : Graph} (frame : before.SameFrame after) :
    after.nodeIds = before.nodeIds := by
  have same : after.nodes = before.nodes := Array.ext_getElem? fun index => frame.node ⟨index⟩
  rw [nodeIds, same]
  rfl

theorem size_pins_withPin (graph : Graph) (node : NodeId) (direction : PinDirection)
    (pinType : PinType) (name : String) :
    (graph.withPin node direction pinType name).pins.size = graph.pins.size + 1 :=
  Array.size_push _

theorem literals_withPin_of_lt (graph : Graph) (node : NodeId) (direction : PinDirection)
    (pinType : PinType) (name : String) {id : PinId} (old : id.index < graph.pins.size) :
    (graph.withPin node direction pinType name).literals id = graph.literals id := by
  unfold literals pin?
  rw [show (graph.withPin node direction pinType name).pins = graph.pins.push _ from rfl,
    Array.getElem?_push_lt old, Array.getElem?_eq_getElem old]

/-! What a step leaves as it is.  It makes the nodes `made`, each with its pins, and of what was
there before it changes no more than the links of the pins `relinked` and the literals of the pins
`relit`. -/

structure Footprint (made : List NodeId) (relinked relit : PinId → Prop) (before after : Graph) :
    Prop where
  regular : after.Regular
  nodes : after.nodeIds = before.nodeIds ++ made
  pinCount : before.pins.size ≤ after.pins.size
  keeps : ∀ {id}, id.index < before.nodes.size → after.node? id = before.node? id
  face : ∀ {id}, id.index < before.pins.size → after.face? id = before.face? id
  added : ∀ {id}, before.pins.size ≤ id.index → id.index < after.pins.size →
    ∃ face, after.face? id = some face ∧ before.nodes.size ≤ face.owner.index
  links : ∀ {id}, id.index < before.pins.size → ¬ relinked id → after.links id = before.links id
  literals : ∀ {id}, id.index < before.pins.size → ¬ relit id →
    after.literals id = before.literals id

section Footprint

variable {before middle after : Graph} {made further : List NodeId}
  {relinked relit otherRelinked otherRelit : PinId → Prop}

theorem length_nodeIds (graph : Graph) : graph.nodeIds.length = graph.nodes.size := by
  simp [nodeIds]

theorem Footprint.nodeCount (footprint : Footprint made relinked relit before after) :
    after.nodes.size = before.nodes.size + made.length := by
  rw [← length_nodeIds, footprint.nodes, List.length_append, length_nodeIds]

theorem Footprint.nodeCount_le (footprint : Footprint made relinked relit before after) :
    before.nodes.size ≤ after.nodes.size :=
  footprint.nodeCount ▸ Nat.le_add_right _ _

theorem Footprint.extended (footprint : Footprint made relinked relit before after) :
    before.Extends after where
  nodeCount := footprint.nodeCount_le
  pinCount := footprint.pinCount
  node := fun found =>
    ⟨_, id, (footprint.keeps (lt_size_of_node? found)).trans found, rfl,
      (NodeKind.mapSettings_id _).symm⟩
  face := footprint.face

theorem Footprint.widen
    (footprint : Footprint made (fun _ => False) (fun _ => False) before after) :
    Footprint made relinked relit before after where
  regular := footprint.regular
  nodes := footprint.nodes
  pinCount := footprint.pinCount
  keeps := footprint.keeps
  face := footprint.face
  added := footprint.added
  links := fun old _ => footprint.links old id
  literals := fun old _ => footprint.literals old id

theorem Footprint.refl (regular : before.Regular) :
    Footprint [] (fun _ => False) (fun _ => False) before before where
  regular := regular
  nodes := by simp
  pinCount := Nat.le_refl _
  keeps := fun _ => rfl
  face := fun _ => rfl
  added := fun new old => (Nat.not_lt_of_le new old).elim
  links := fun _ _ => rfl
  literals := fun _ _ => rfl

theorem Footprint.mono (footprint : Footprint made relinked relit before after)
    (links : ∀ {id}, id.index < before.pins.size → relinked id → otherRelinked id)
    (literals : ∀ {id}, id.index < before.pins.size → relit id → otherRelit id) :
    Footprint made otherRelinked otherRelit before after where
  regular := footprint.regular
  nodes := footprint.nodes
  pinCount := footprint.pinCount
  keeps := footprint.keeps
  face := footprint.face
  added := footprint.added
  links := fun old apart => footprint.links old (mt (links old) apart)
  literals := fun old apart => footprint.literals old (mt (literals old) apart)

/-- What the second step does to the pins that the first has made does not count. -/
theorem Footprint.trans (first : Footprint made relinked relit before middle)
    (second : Footprint further otherRelinked otherRelit middle after)
    (links : ∀ {id}, id.index < before.pins.size → otherRelinked id → relinked id)
    (literals : ∀ {id}, id.index < before.pins.size → otherRelit id → relit id) :
    Footprint (made ++ further) relinked relit before after where
  regular := second.regular
  nodes := by rw [second.nodes, first.nodes, List.append_assoc]
  pinCount := Nat.le_trans first.pinCount second.pinCount
  keeps := fun old =>
    (second.keeps (Nat.lt_of_lt_of_le old first.nodeCount_le)).trans (first.keeps old)
  face := fun old => (second.face (Nat.lt_of_lt_of_le old first.pinCount)).trans (first.face old)
  added := by
    intro id new bound
    rcases Nat.lt_or_ge id.index middle.pins.size with earlier | later
    · obtain ⟨face, found, owner⟩ := first.added new earlier
      exact ⟨face, (second.face earlier).trans found, owner⟩
    · obtain ⟨face, found, owner⟩ := second.added later bound
      exact ⟨face, found, Nat.le_trans first.nodeCount_le owner⟩
  links := fun old apart =>
    (second.links (Nat.lt_of_lt_of_le old first.pinCount) (mt (links old) apart)).trans
      (first.links old apart)
  literals := fun old apart =>
    (second.literals (Nat.lt_of_lt_of_le old first.pinCount) (mt (literals old) apart)).trans
      (first.literals old apart)

/-- A step that makes no nodes. -/
theorem Footprint.andThen (first : Footprint made relinked relit before middle)
    (second : Footprint [] otherRelinked otherRelit middle after)
    (links : ∀ {id}, id.index < before.pins.size → otherRelinked id → relinked id)
    (literals : ∀ {id}, id.index < before.pins.size → otherRelit id → relit id) :
    Footprint made relinked relit before after := by
  simpa using first.trans second links literals

theorem Footprint.of_frame (frame : before.SameFrame after) (regular : after.Regular)
    (links : ∀ {id}, ¬ relinked id → after.links id = before.links id)
    (literals : ∀ {id}, ¬ relit id → after.literals id = before.literals id) :
    Footprint [] relinked relit before after where
  regular := regular
  nodes := by rw [frame.nodeIds_eq, List.append_nil]
  pinCount := Nat.le_of_eq frame.pinCount.symm
  keeps := fun _ => frame.node _
  face := fun _ => frame.face _
  added := fun new bound => (Nat.not_lt_of_le new (frame.pinCount ▸ bound)).elim
  links := fun _ => links
  literals := fun _ => literals

/-- What has been made has its own pins and none that was there before. -/
theorem Footprint.pinCount_le (footprint : Footprint made relinked relit before after)
    (sound : before.Sound) {id : PinId} {face : PinFace} (found : after.face? id = some face)
    (new : before.nodes.size ≤ face.owner.index) : before.pins.size ≤ id.index :=
  Added.pinCount_le ⟨face, found, new⟩ sound footprint.extended

theorem Footprint.pinCount_le_of_owns (footprint : Footprint made relinked relit before after)
    (sound : before.Sound) {node : NodeId} {id : PinId} (owned : after.Owns node id)
    (new : before.nodes.size ≤ node.index) : before.pins.size ≤ id.index := by
  obtain ⟨face, found, rfl⟩ := owned
  exact footprint.pinCount_le sound found new

/-- Nodes that were there get no pins. -/
theorem Footprint.face?_of_owner (footprint : Footprint made relinked relit before after)
    {id : PinId} {face : PinFace} (found : after.face? id = some face)
    (old : face.owner.index < before.nodes.size) : before.face? id = some face := by
  rcases Nat.lt_or_ge id.index before.pins.size with earlier | later
  · exact (footprint.face earlier).symm.trans found
  · obtain ⟨other, otherFound, new⟩ := footprint.added later (lt_size_of_face? found)
    cases found.symm.trans otherFound
    exact (Nat.not_lt_of_le new old).elim

/-- A node has been made with its pins, and none of them is linked. -/
structure Makes (source : NodeId) (kind : NodeKind) (specs : List PinSpec) (node : NodeId)
    (before after : Graph) : Prop
    extends Footprint [node] (fun _ => False) (fun _ => False) before after where
  spawned : Spawned before after source kind node
  bears : ∀ spec ∈ specs, ∃ id, after.HasPin node spec id
  sameLinks : after.links = before.links
  distinct : PinSpec.Distinct specs

section Makes

variable {source node : NodeId} {kind : NodeKind} {specs : List PinSpec} {id : PinId}

theorem Makes.hasPin {later : Graph} (makes : Makes source kind specs node before after)
    (extension : after.Extends later) (regular : later.Regular) {spec : PinSpec}
    (listed : spec ∈ specs) (port : later.Port node spec.direction spec.name id) :
    after.HasPin node spec id := by
  obtain ⟨other, hasPin⟩ := makes.bears spec listed
  obtain rfl := (hasPin.mono extension).eq_of_port regular port
  exact hasPin

theorem Makes.pinCount_le (makes : Makes source kind specs node before after)
    (sound : before.Sound) (owned : after.Owns node id) : before.pins.size ≤ id.index := by
  obtain ⟨face, found, rfl⟩ := owned
  exact makes.toFootprint.pinCount_le sound found makes.spawned.added

theorem Makes.unlinked (makes : Makes source kind specs node before after) (sound : before.Sound)
    (owned : after.Owns node id) : after.links id = [] := by
  rw [makes.sameLinks, links_of_absent (makes.pinCount_le sound owned)]

end Makes

end Footprint

end Graph

namespace Edit

open RigLowering.Graph

section Literals

variable {literals : PinId → Option String × Option String}

theorem modifyPin_keeps_literals (id : PinId) {change : Pin → Pin}
    (keeps : ∀ pin, (change pin).defaultValue = pin.defaultValue ∧
      (change pin).defaultObject = pin.defaultObject) :
    Keeps (·.literals = literals) (modifyPin id change) := by
  rintro graph same
  rw [modifyPin_apply]
  cases graph.pin? id with
  | none => exact same
  | some pin =>
      funext other
      exact (graph.literals_changePin id other keeps).trans (congrFun same other)

theorem link_keeps_literals (a b : PinId) : Keeps (·.literals = literals) (link a b) := by
  have linkKeeps (id far : PinId) : Keeps (·.literals = literals) (modifyPin id (·.link far)) :=
    modifyPin_keeps_literals id fun _ => ⟨rfl, rfl⟩
  refine (keeps_query _).bind fun _ => (keeps_query _).bind fun pin => ?_
  split
  · exact keeps_pure _
  · exact (linkKeeps _ _).bind fun _ => linkKeeps _ _

private theorem modifyPin_unlink_keeps_literals (id far : PinId) :
    Keeps (·.literals = literals) (modifyPin id (·.unlink far)) :=
  modifyPin_keeps_literals id fun _ => ⟨rfl, rfl⟩

theorem unlink_keeps_literals (a b : PinId) : Keeps (·.literals = literals) (unlink a b) :=
  (modifyPin_unlink_keeps_literals _ _).bind fun _ => modifyPin_unlink_keeps_literals _ _

theorem unlinkPin_keeps_literals (id : PinId) : Keeps (·.literals = literals) (unlinkPin id) := by
  have unlinkAllKeeps : Keeps (·.literals = literals) (modifyPin id (·.unlinkAll)) :=
    modifyPin_keeps_literals id fun _ => ⟨rfl, rfl⟩
  exact (keeps_query _).bind fun _ => unlinkAllKeeps.bind fun _ =>
    Keeps.forM (fun _ => modifyPin_unlink_keeps_literals _ _) _

end Literals

variable {before after : Graph}

theorem link_footprint {a b : PinId} (regular : before.Regular)
    (linked : Yields (link a b) before () after) :
    Footprint [] (fun id => id = a ∨ id = b) (fun _ => False) before after := by
  obtain ⟨_, _, frame, _⟩ := link_effect linked
  refine .of_frame frame ((link_keeps_regular a b).holds_after linked regular) ?_ fun _ => ?_
  · intro id apart
    rw [not_or] at apart
    exact link_elsewhere linked apart.1 apart.2
  · exact congrFun ((link_keeps_literals a b).holds_after linked rfl) _

theorem transferLinks_footprint {origin dest : PinId} (regular : before.Regular)
    (moved : Yields (transferLinks origin dest) before () after) :
    Footprint [] (fun id => id = origin ∨ id = dest ∨ id ∈ before.links origin)
      (fun _ => False) before after := by
  have afterRegular := (Composed.transferLinks origin dest).keeps_regular.holds_after moved regular
  have literals := (keeps_transferLinks unlink_keeps_literals link_keeps_literals origin
    dest).holds_after moved (rfl : before.literals = _)
  rcases transferLinks_lists regular moved with ⟨_, rfl⟩ | ⟨frame, lists⟩
  · exact (Footprint.refl regular).mono (fun _ => False.elim) fun _ => False.elim
  · refine .of_frame frame afterRegular ?_ fun _ => congrFun literals _
    intro id apart
    simp only [not_or] at apart
    exact lists.elsewhere apart.1 apart.2.1 apart.2.2

theorem changeLiterals_footprint {pin : PinId} {value object : Pin → Option String}
    (regular : before.Regular)
    (changed : Yields (modifyPin pin (·.setLiterals value object)) before () after) :
    Footprint [] (fun _ => False) (· = pin) before after ∧ after.links = before.links ∧
      ∃ data, before.pin? pin = some data ∧ after.literals pin = (value data, object data) := by
  have afterRegular :=
    (Composed.changeLiterals pin value object).keeps_regular.holds_after changed regular
  unfold Yields at changed
  rw [modifyPin_apply] at changed
  cases live : before.pin? pin with
  | none =>
      rw [live] at changed
      cases changed
  | some data =>
      rw [live] at changed
      cases changed
      have links := before.links_changePin_setLiterals pin value object
      refine ⟨.of_frame (before.changePin_sameFrame pin fun _ => rfl) afterRegular
        (fun _ => links _) ?_, funext links, data, rfl, ?_⟩
      · intro id apart
        exact before.literals_changePin_of_ne _ (Ne.symm apart)
      · rw [literals_of_pin? (by rw [pin?_changePin, if_pos rfl, live]; rfl)]
        rfl

private theorem layPin_keeps_literals {node : NodeId} {spec : PinSpec} {pin : PinId}
    (laid : Yields (layPin node spec) before pin after) {id : PinId}
    (old : id.index < before.pins.size) : after.literals id = before.literals id := by
  rw [layPin_eq] at laid
  obtain ⟨pin, middle, added, afterAdd⟩ := yields_bind_iff.mp laid
  obtain ⟨⟨⟩, _, changed, returned⟩ := yields_bind_iff.mp afterAdd
  obtain ⟨_, rfl⟩ := yields_pure_iff.mp returned
  unfold Yields at added changed
  rcases addPin_cases node spec.direction spec.pinType spec.name before with
    ⟨_, failed⟩ | ⟨_, _, _, grown⟩
  · exact (nomatch failed.symm.trans added)
  · cases grown.symm.trans added
    rw [modifyPin_apply] at changed
    split at changed
    · cases changed
      have different : (⟨before.pins.size⟩ : PinId) ≠ id := fun same =>
        Nat.lt_irrefl _ (same ▸ old)
      rw [literals_changePin_of_ne _ _ different, literals_withPin_of_lt _ _ _ _ _ old]
    · cases changed

private theorem layPin_frame {node : NodeId} {spec : PinSpec} {pin : PinId}
    (laid : Yields (layPin node spec) before pin after) :
    after.nodeIds = before.nodeIds ∧ after.pins.size = before.pins.size + 1 ∧
      (∀ id, id ≠ node → after.node? id = before.node? id) ∧
      (∀ id, id.index < before.pins.size → after.face? id = before.face? id) ∧
      ∃ face, after.face? ⟨before.pins.size⟩ = some face ∧ face.owner = node := by
  obtain ⟨_, _, frame, _⟩ := layPin_effect laid
  refine ⟨?_, ?_, ?_, ?_, ?_⟩
  · rw [frame.nodeIds_eq, nodeIds_withPin]
  · rw [frame.pinCount, size_pins_withPin]
  · intro id other
    rw [frame.node, node?_withPin, if_neg (Ne.symm other)]
  · intro id old
    rw [frame.face, face?_withPin, if_neg (Nat.ne_of_lt old)]
  · rw [frame.face, face?_withPin, if_pos rfl]
    exact ⟨_, rfl, rfl⟩

theorem layPins_frame {node : NodeId} {specs : List PinSpec}
    (laid : Yields (layPins node specs) before () after) :
    after.nodeIds = before.nodeIds ∧ before.pins.size ≤ after.pins.size ∧
      (∀ id, id ≠ node → after.node? id = before.node? id) ∧
      (∀ id, id.index < before.pins.size → after.face? id = before.face? id ∧
        after.literals id = before.literals id) ∧
      ∀ id, before.pins.size ≤ id.index → id.index < after.pins.size →
        ∃ face, after.face? id = some face ∧ face.owner = node := by
  unfold layPins at laid
  induction specs generalizing before with
  | nil =>
      obtain ⟨_, rfl⟩ := yields_pure_iff.mp laid
      exact ⟨rfl, Nat.le_refl _, fun _ _ => rfl, fun _ _ => ⟨rfl, rfl⟩,
        fun _ new bound => (Nat.not_lt_of_le new bound).elim⟩
  | cons spec rest ih =>
      obtain ⟨_, middle, first, others⟩ := yields_bind_iff.mp laid
      obtain ⟨pin, firstLaid⟩ := yields_discard_iff.mp first
      obtain ⟨firstNodes, firstCount, firstNode, firstFace, face, found, owner⟩ :=
        layPin_frame firstLaid
      obtain ⟨nodes, pinCount, node, faces, added⟩ := ih others
      refine ⟨nodes.trans firstNodes, by omega, ?_, ?_, ?_⟩
      · exact fun id other => (node id other).trans (firstNode id other)
      · intro id old
        obtain ⟨sameFace, sameLiterals⟩ := faces id (by omega)
        exact ⟨sameFace.trans (firstFace id old),
          sameLiterals.trans (layPin_keeps_literals firstLaid old)⟩
      · intro id new bound
        rcases Nat.lt_or_ge id.index middle.pins.size with earlier | later
        · obtain rfl : id = ⟨before.pins.size⟩ := congrArg PinId.mk (by omega)
          exact ⟨face, (faces _ earlier).1.trans found, owner⟩
        · exact added id later bound

/-- What a node has a pin for cannot be laid once more. -/
private theorem layPins_clear {node : NodeId} {specs : List PinSpec} (regular : before.Regular)
    (laid : Yields (layPins node specs) before () after) {direction : PinDirection} {name : String}
    {id : PinId} (port : before.Port node direction name id) :
    ∀ spec ∈ specs, ¬ (spec.direction = direction ∧ spec.name = name) := by
  unfold layPins at laid
  induction specs generalizing before with
  | nil => simp
  | cons spec rest ih =>
      obtain ⟨_, middle, first, others⟩ := yields_bind_iff.mp laid
      obtain ⟨pin, firstLaid⟩ := yields_discard_iff.mp first
      have middleRegular := (Composed.layPin node spec).keeps_regular.holds_after firstLaid regular
      obtain ⟨_, _, _, faces, _⟩ := layPin_frame firstLaid
      obtain ⟨face, found, owner, directed, named⟩ := port
      have kept : middle.face? id = some face := (faces id (lt_size_of_face? found)).trans found
      intro other listed
      rcases List.mem_cons.mp listed with rfl | later
      · obtain ⟨newFace, newFound, newOwner, spec⟩ := layPin_hasPin firstLaid
        obtain ⟨rfl, _⟩ := layPin_effect firstLaid
        rintro ⟨sameDirection, sameName⟩
        have same := middleRegular.namesUnique newFound kept (newOwner.trans owner.symm)
          ((congrArg PinSpec.name spec).trans (sameName.trans named.symm))
          ((congrArg PinSpec.direction spec).trans (sameDirection.trans directed.symm))
        exact Nat.lt_irrefl _ (same ▸ lt_size_of_face? found)
      · exact ih middleRegular others ⟨face, kept, owner, directed, named⟩ other later

theorem layPins_distinct {node : NodeId} {specs : List PinSpec} (regular : before.Regular)
    (laid : Yields (layPins node specs) before () after) : PinSpec.Distinct specs := by
  unfold layPins at laid
  induction specs generalizing before with
  | nil => exact .nil
  | cons spec rest ih =>
      obtain ⟨_, middle, first, others⟩ := yields_bind_iff.mp laid
      obtain ⟨pin, firstLaid⟩ := yields_discard_iff.mp first
      have middleRegular := (Composed.layPin node spec).keeps_regular.holds_after firstLaid regular
      exact .cons (layPins_clear middleRegular others (layPin_hasPin firstLaid).port)
        (ih middleRegular others)

theorem spawnNode_makes {middle : Graph} {kind : NodeKind} {source node : NodeId}
    {specs : List PinSpec} (regular : before.Regular) (primitive : kind.settings? = none)
    (made : Yields (spawnNode kind source) before node middle)
    (laid : Yields (layPins node specs) middle () after) :
    Makes source kind specs node before after := by
  have middleRegular := (Composed.spawnNode kind source).keeps_regular.holds_after made regular
  obtain ⟨_, spawned⟩ := yields_spawnNode regular (.refl before) made
  have undisturbed : Undisturbed before source middle after :=
    yields_layPins spawned.added middleRegular laid
  have bears := @layPins_bears _ _ before source node specs spawned.added middleRegular laid
  have links := (yields_layPins_links laid).trans
    ((spawnNode_keeps_links kind source).holds_after made rfl)
  obtain ⟨nodes, pinCount, nodesStay, pinsStay, added⟩ := layPins_frame laid
  refine ⟨?_, spawned.mono primitive undisturbed.extended, bears, links,
    layPins_distinct middleRegular laid⟩
  unfold Yields at made
  rcases spawnNode_cases kind source before with ⟨_, failed⟩ | grown
  · exact (nomatch failed.symm.trans made)
  · cases grown.symm.trans made
    refine {
      regular := undisturbed.regular
      nodes := nodes.trans (before.nodeIds_withNode kind source)
      pinCount := pinCount
      keeps := ?_
      face := fun old => (pinsStay _ old).1
      added := ?_
      links := fun _ _ => congrFun links _
      literals := fun old _ => (pinsStay _ old).2 }
    · intro id old
      have other : id ≠ ⟨before.nodes.size⟩ := fun same => Nat.lt_irrefl _ (same ▸ old)
      rw [nodesStay id other, node?_withNode, if_neg (Nat.ne_of_lt old)]
    · intro id new bound
      obtain ⟨face, found, owner⟩ := added id new bound
      exact ⟨face, found, Nat.le_of_eq (congrArg NodeId.index owner).symm⟩

end Edit

namespace Pass

open RigLowering.Graph

variable {source : NodeId} {before after : PassState}

theorem yields_spawnNode_edit {kind : NodeKind} {node : NodeId}
    (yielded : Yields (spawnNode kind source) before node after) :
    Yields (Edit.spawnNode kind source) before.graph node after.graph := by
  obtain ⟨_, middle, added, counting⟩ := yields_bind_iff.mp yielded
  obtain ⟨_, _, counted, returned⟩ := yields_bind_iff.mp counting
  obtain ⟨rfl, rfl⟩ := yields_pure_iff.mp returned
  obtain rfl := yields_modify_iff.mp counted
  have made : Yields (Edit.spawnNode kind source) before.graph _ middle.graph := yields_edit added
  exact made

theorem yields_spawn_edit {kind : NodeKind} {specs : List PinSpec} {node : NodeId}
    (yielded : Yields (spawn kind specs source) before node after) :
    ∃ middle, Yields (Edit.spawnNode kind source) before.graph node middle ∧
      Yields (Edit.layPins node specs) middle () after.graph := by
  obtain ⟨_, middle, making, laying⟩ := yields_bind_iff.mp yielded
  obtain ⟨⟨⟩, _, laid, returned⟩ := yields_bind_iff.mp laying
  obtain ⟨rfl, rfl⟩ := yields_pure_iff.mp returned
  exact ⟨middle.graph, yields_spawnNode_edit making, yields_edit laid⟩

theorem yields_spawnEvent_edit {signature name : String} {node : NodeId}
    (yielded : Yields (spawnEvent source signature name) before node after) :
    ∃ functionName middle,
      Yields (Edit.spawnNode (.event signature functionName) source) before.graph node middle ∧
        Yields (Edit.layPins node (PrimitivePins.event signature)) middle () after.graph := by
  obtain ⟨_, middle, making, laying⟩ := yields_bind_iff.mp yielded
  obtain ⟨functionName, reserved, naming, spawning⟩ := yields_bind_iff.mp making
  obtain ⟨⟨⟩, _, laid, returned⟩ := yields_bind_iff.mp laying
  obtain ⟨rfl, rfl⟩ := yields_pure_iff.mp returned
  have same := Apart.yields_graph (fun _ _ _ => rfl) naming
  exact ⟨functionName, middle.graph, same ▸ yields_spawnNode_edit spawning, yields_edit laid⟩

theorem spawn_makes {kind : NodeKind} {specs : List PinSpec} {node : NodeId}
    (regular : before.graph.Regular) (primitive : kind.settings? = none)
    (yielded : Yields (spawn kind specs source) before node after) :
    Makes source kind specs node before.graph after.graph := by
  obtain ⟨middle, made, laid⟩ := yields_spawn_edit yielded
  exact Edit.spawnNode_makes regular primitive made laid

theorem spawnEvent_makes {signature name : String} {node : NodeId}
    (regular : before.graph.Regular)
    (yielded : Yields (spawnEvent source signature name) before node after) :
    ∃ functionName, Makes source (.event signature functionName) (PrimitivePins.event signature)
      node before.graph after.graph := by
  obtain ⟨functionName, middle, made, laid⟩ := yields_spawnEvent_edit yielded
  exact ⟨functionName, Edit.spawnNode_makes regular rfl made laid⟩

theorem link_footprint {a b : PinId} (regular : before.graph.Regular)
    (yielded : Yields (edit (.link a b)) before () after) :
    Footprint [] (fun id => id = a ∨ id = b) (fun _ => False) before.graph after.graph :=
  Edit.link_footprint regular (yields_edit yielded)

theorem changeLiterals_footprint {pin : PinId} {value object : Pin → Option String}
    (regular : before.graph.Regular)
    (yielded : Yields (edit (.modifyPin pin (·.setLiterals value object))) before () after) :
    Footprint [] (fun _ => False) (· = pin) before.graph after.graph ∧
      after.graph.links = before.graph.links ∧
      ∃ data, before.graph.pin? pin = some data ∧
        after.graph.literals pin = (value data, object data) :=
  Edit.changeLiterals_footprint regular (yields_edit yielded)

/-- Only literals of an input go along with its links. -/
theorem transferPin_footprint {origin dest : PinId} (regular : before.graph.Regular)
    (yielded : Yields (transferPin origin dest) before () after) :
    Footprint [] (fun id => id = origin ∨ id = dest ∨ id ∈ before.graph.links origin)
        (fun id => id = dest ∧
          ∃ face, before.graph.face? origin = some face ∧ face.direction = .input)
        before.graph after.graph ∧
      (origin = dest ∧ after.graph.links = before.graph.links ∨
        LinksMoved origin dest before.graph after.graph) := by
  obtain ⟨_, _, transferred, reading⟩ := yields_bind_iff.mp (yields_edit yielded)
  obtain ⟨pin, middle, read, literals⟩ := yields_bind_iff.mp reading
  obtain ⟨rfl, live⟩ := Edit.yields_pin_iff.mp read
  have moved := Edit.transferLinks_footprint regular transferred
  have frame := (Edit.transferLinks_keeps_frame origin dest).holds_after transferred (.refl _)
  have lists : origin = dest ∧ middle.links = before.graph.links ∨
      LinksMoved origin dest before.graph middle :=
    (Edit.transferLinks_lists regular transferred).imp
      (fun ⟨same, unchanged⟩ => ⟨same, congrArg links unchanged⟩) And.right
  split at literals
  · next input =>
      obtain ⟨changed, links, _⟩ := Edit.changeLiterals_footprint moved.regular literals
      rw [links]
      refine ⟨?_, lists.imp_right fun moved => moved.of_links links⟩
      refine (moved.mono (fun _ relinked => relinked) fun _ => False.elim).andThen changed
        (fun _ => False.elim) ?_
      rintro id old rfl
      exact ⟨rfl, pin.face, (frame.face origin).symm.trans (face?_of_pin? live), input⟩
  · obtain ⟨_, same⟩ := yields_pure_iff.mp literals
    rw [same]
    exact ⟨moved.mono (fun _ relinked => relinked) fun _ => False.elim, lists⟩

end Pass

end RigLowering
