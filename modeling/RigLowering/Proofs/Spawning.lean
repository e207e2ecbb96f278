import RigLowering.Proofs.Growth

namespace RigLowering

namespace NodeKind

def givesValue : NodeKind → Bool
  | .call .. | .getField .. | .copy => true
  | _ => false

def isSequenced : NodeKind → Bool
  | .event .. | .setField .. | .bindField .. => true
  | _ => false

theorem settings?_of_givesValue {kind : NodeKind} (gives : kind.givesValue) :
    kind.settings? = none := by
  cases kind with
  | evaluator settings => cases gives
  | _ => rfl

theorem settings?_of_isSequenced {kind : NodeKind} (sequenced : kind.isSequenced) :
    kind.settings? = none := by
  cases kind with
  | evaluator settings => cases sequenced
  | _ => rfl

end NodeKind

namespace Graph

/-- A pin of the node, by its direction and name. -/
def Port (graph : Graph) (node : NodeId) (direction : PinDirection) (name : String)
    (id : PinId) : Prop :=
  ∃ face, graph.face? id = some face ∧ face.owner = node ∧ face.direction = direction ∧
    face.name = name

/-- A node that `after` has beyond those of `before`, and that stands for part of what `source`
meant. -/
structure Spawned (before after : Graph) (source : NodeId) (kind : NodeKind) (node : NodeId) :
    Prop where
  added : before.nodes.size ≤ node.index
  found : ∃ data, after.node? node = some data ∧ data.kind = kind ∧ data.spawnedBy = some source

/-- A pin of a node that `after` has beyond those of `before`. -/
def Added (before after : Graph) (id : PinId) : Prop :=
  ∃ face, after.face? id = some face ∧ before.nodes.size ≤ face.owner.index

/-- An output that a spawned node hands a value on from. -/
def Feeds (before after : Graph) (source : NodeId) (id : PinId) : Prop :=
  ∃ kind node name, Spawned before after source kind node ∧ kind.givesValue ∧
    after.Port node .output name id

/-- An output that execution goes on from. -/
def Continues (before after : Graph) (source : NodeId) (id : PinId) : Prop :=
  ∃ kind node name, Spawned before after source kind node ∧ kind.isSequenced ∧
    after.Port node .output name id

section Extends

variable {base graph later : Graph} {source node : NodeId} {kind : NodeKind} {id : PinId}

theorem Port.mono {direction : PinDirection} {name : String}
    (port : graph.Port node direction name id) (extension : graph.Extends later) :
    later.Port node direction name id := by
  obtain ⟨face, found, rest⟩ := port
  exact ⟨face, extension.face?_eq found, rest⟩

theorem Spawned.mono (spawned : Spawned base graph source kind node)
    (primitive : kind.settings? = none) (extension : graph.Extends later) :
    Spawned base later source kind node := by
  obtain ⟨added, data, found, rfl, spawnedBy⟩ := spawned
  obtain ⟨after, change, afterFound, afterSpawnedBy, afterKind⟩ := extension.node found
  rw [NodeKind.mapSettings_eq_self primitive] at afterKind
  exact ⟨added, after, afterFound, afterKind, afterSpawnedBy.trans spawnedBy⟩

theorem Spawned.kind_eq {other : NodeKind} (spawned : Spawned base graph source kind node)
    (otherSpawned : Spawned base graph source other node) : kind = other := by
  obtain ⟨_, data, found, rfl, _⟩ := spawned
  obtain ⟨_, otherData, otherFound, rfl, _⟩ := otherSpawned
  rw [found] at otherFound
  cases otherFound
  rfl

theorem Added.mono (added : Added base graph id) (extension : graph.Extends later) :
    Added base later id := by
  obtain ⟨face, found, owner⟩ := added
  exact ⟨face, extension.face?_eq found, owner⟩

theorem Feeds.mono (feeds : Feeds base graph source id) (extension : graph.Extends later) :
    Feeds base later source id := by
  obtain ⟨kind, node, name, spawned, gives, port⟩ := feeds
  exact ⟨kind, node, name, spawned.mono (NodeKind.settings?_of_givesValue gives) extension,
    gives, port.mono extension⟩

theorem Continues.mono (continues : Continues base graph source id)
    (extension : graph.Extends later) : Continues base later source id := by
  obtain ⟨kind, node, name, spawned, sequenced, port⟩ := continues
  exact ⟨kind, node, name,
    spawned.mono (NodeKind.settings?_of_isSequenced sequenced) extension, sequenced,
    port.mono extension⟩

theorem Spawned.port_added {direction : PinDirection} {name : String}
    (spawned : Spawned base graph source kind node) (port : graph.Port node direction name id) :
    Added base graph id := by
  obtain ⟨face, found, rfl, _⟩ := port
  exact ⟨face, found, spawned.added⟩

theorem Feeds.added (feeds : Feeds base graph source id) : Added base graph id := by
  obtain ⟨kind, node, name, spawned, _, port⟩ := feeds
  exact spawned.port_added port

theorem Continues.added (continues : Continues base graph source id) : Added base graph id := by
  obtain ⟨kind, node, name, spawned, _, port⟩ := continues
  exact spawned.port_added port

theorem Feeds.ne_of_continues {exec : PinId} (feeds : Feeds base graph source id)
    (continues : Continues base graph source exec) : id ≠ exec := by
  rintro rfl
  obtain ⟨kind, node, name, spawned, gives, face, found, rfl, _⟩ := feeds
  obtain ⟨other, _, _, otherSpawned, sequenced, otherFace, otherFound, rfl, _⟩ := continues
  rw [found] at otherFound
  cases otherFound
  obtain rfl := spawned.kind_eq otherSpawned
  cases kind <;> simp [NodeKind.givesValue, NodeKind.isSequenced] at gives sequenced

/-- The pins of added nodes come after those that were there. -/
theorem Added.pinCount_le (added : Added base graph id) (sound : base.Sound)
    (extension : base.Extends graph) : base.pins.size ≤ id.index := by
  apply Nat.le_of_not_lt
  intro old
  obtain ⟨face, found, owner⟩ := added
  rw [extension.face old] at found
  obtain ⟨data, ownerFound, _⟩ := sound.owned found
  exact Nat.not_lt_of_le owner (lt_size_of_node? ownerFound)

theorem Added.not_owns {existing : NodeId} (added : Added base graph id)
    (old : existing.index < base.nodes.size) : ¬ graph.Owns existing id := by
  rintro ⟨face, found, rfl⟩
  obtain ⟨other, otherFound, owner⟩ := added
  rw [found] at otherFound
  cases otherFound
  exact Nat.not_lt_of_le owner old

end Extends

/-! What the expansion of `source` does to a graph that came from `base`.  It adds to what is
there, what it adds belongs to nodes that it has spawned, and it changes no other node. -/

structure Grows (base : Graph) (source : NodeId) (before after : Graph) : Prop where
  extended : before.Extends after
  regular : after.Regular
  keeps : ∀ {id}, id.index < base.nodes.size → id ≠ source → after.node? id = before.node? id
  node : ∀ {id data}, after.node? id = some data → before.nodes.size ≤ id.index →
    data.spawnedBy = some source
  pin : ∀ {id face}, after.face? id = some face → before.pins.size ≤ id.index →
    base.nodes.size ≤ face.owner.index
  retains : ∀ {id far}, Feeds base before source id → Added base before far →
    far ∈ before.links id → far ∈ after.links id

/-- Growth that leaves alone the links of the pins of `base`. -/
structure Undisturbed (base : Graph) (source : NodeId) (before after : Graph) : Prop
    extends Grows base source before after where
  links : ∀ {id far}, id.index < base.pins.size →
    (far ∈ after.links id ↔ far ∈ before.links id)

section Grows

variable {base before middle after : Graph} {source : NodeId}

theorem Grows.refl (regular : before.Regular) : Grows base source before before where
  extended := .refl _
  regular := regular
  keeps := fun _ _ => rfl
  node := fun found new => (Nat.not_lt_of_le new (lt_size_of_node? found)).elim
  pin := fun found new => (Nat.not_lt_of_le new (lt_size_of_face? found)).elim
  retains := fun _ _ member => member

theorem Grows.trans (first : Grows base source before middle)
    (second : Grows base source middle after) : Grows base source before after where
  extended := first.extended.trans second.extended
  regular := second.regular
  keeps := fun old other => (second.keeps old other).trans (first.keeps old other)
  node := by
    intro id data found new
    rcases Nat.lt_or_ge id.index middle.nodes.size with old | later
    · have live : middle.node? id = some middle.nodes[id.index] :=
        Array.getElem?_eq_getElem old
      obtain ⟨data', change, found', spawnedBy, _⟩ := second.extended.node live
      rw [found] at found'
      cases found'
      rw [spawnedBy]
      exact first.node live new
    · exact second.node found later
  pin := by
    intro id face found new
    rcases Nat.lt_or_ge id.index middle.pins.size with old | later
    · rw [second.extended.face old] at found
      exact first.pin found new
    · exact second.pin found later
  retains := fun feeds added member =>
    second.retains (feeds.mono first.extended) (added.mono first.extended)
      (first.retains feeds added member)

theorem Undisturbed.refl (regular : before.Regular) : Undisturbed base source before before where
  toGrows := .refl regular
  links := fun _ => .rfl

theorem Undisturbed.trans (first : Undisturbed base source before middle)
    (second : Undisturbed base source middle after) : Undisturbed base source before after where
  toGrows := first.toGrows.trans second.toGrows
  links := fun old => (second.links old).trans (first.links old)

theorem Grows.of_frame (frame : before.SameFrame after) (regular : after.Regular)
    (retains : ∀ {id far}, Feeds base before source id → Added base before far →
      far ∈ before.links id → far ∈ after.links id) : Grows base source before after where
  extended := frame.extended
  regular := regular
  keeps := fun _ _ => frame.node _
  node := fun found new =>
    (Nat.not_lt_of_le new (lt_size_of_node? (frame.node _ ▸ found))).elim
  pin := fun found new =>
    (Nat.not_lt_of_le new (lt_size_of_face? (frame.face _ ▸ found))).elim
  retains := retains

theorem Undisturbed.of_links_eq (frame : before.SameFrame after) (regular : after.Regular)
    (links : ∀ id, after.links id = before.links id) : Undisturbed base source before after where
  toGrows := .of_frame frame regular fun _ _ member => links _ ▸ member
  links := fun _ => by rw [links]

theorem Undisturbed.withNode (regular : before.Regular) (extension : base.Extends before)
    (kind : NodeKind) :
    Undisturbed base source before (before.withNode kind source) where
  extended := before.withNode_extends kind source
  regular := regular.withNode kind source
  keeps := by
    intro id old _
    rw [node?_withNode, if_neg (Nat.ne_of_lt (Nat.lt_of_lt_of_le old extension.nodeCount))]
  node := by
    intro id data found new
    rw [node?_withNode] at found
    split at found
    · cases found
      rfl
    · exact (Nat.not_lt_of_le new (lt_size_of_node? found)).elim
  pin := fun found new => (Nat.not_lt_of_le new (lt_size_of_face? found)).elim
  retains := fun _ _ member => member
  links := fun _ => .rfl

theorem Undisturbed.withPin {node : NodeId} {direction : PinDirection} {pinType : PinType}
    {name : String} (new : base.nodes.size ≤ node.index)
    (regular : (before.withPin node direction pinType name).Regular) :
    Undisturbed base source before (before.withPin node direction pinType name) where
  extended := before.withPin_extends node direction pinType name
  regular := regular
  keeps := by
    intro id old _
    rw [node?_withPin, if_neg]
    rintro rfl
    exact Nat.not_lt_of_le new old
  node := by
    intro id data found late
    have bound := lt_size_of_node? found
    rw [size_nodes_withPin] at bound
    exact (Nat.not_lt_of_le late bound).elim
  pin := by
    intro id face found late
    rw [face?_withPin] at found
    split at found
    · cases found
      exact new
    · exact (Nat.not_lt_of_le late (lt_size_of_face? found)).elim
  retains := by
    intro id far _ _ member
    rw [links_withPin]
    exact member
  links := fun _ => by rw [links_withPin]

end Grows

end Graph

namespace Edit

open RigLowering.Graph

variable {base before after : Graph} {source : NodeId}

/-- A pin is laid after all others.  Its literal is neither in the frame nor in the links. -/
theorem layPin_effect {node : NodeId} {spec : PinSpec} {id : PinId}
    (laid : Yields (layPin node spec) before id after) :
    id = ⟨before.pins.size⟩ ∧
      Yields (addPin node spec.direction spec.pinType spec.name) before id
        (before.withPin node spec.direction spec.pinType spec.name) ∧
      (before.withPin node spec.direction spec.pinType spec.name).SameFrame after ∧
      ∀ other, after.links other =
        (before.withPin node spec.direction spec.pinType spec.name).links other := by
  rw [layPin_eq] at laid
  obtain ⟨pin, middle, added, literal⟩ := yields_bind_iff.mp laid
  obtain ⟨_, last, changed, returned⟩ := yields_bind_iff.mp literal
  obtain ⟨rfl, rfl⟩ := yields_pure_iff.mp returned
  unfold Yields at changed
  rcases addPin_cases node spec.direction spec.pinType spec.name before with
    ⟨_, failed⟩ | ⟨_, _, _, grown⟩
  · cases failed.symm.trans added
  · cases grown.symm.trans added
    rcases changeLiterals_cases ⟨before.pins.size⟩ _ _ _ with ⟨_, failed⟩ | ⟨_, done, frame, links⟩
    · rw [failed] at changed
      cases changed
    · rw [done] at changed
      cases changed
      exact ⟨rfl, added, frame, links⟩

theorem yields_layPin {node : NodeId} {spec : PinSpec} {id : PinId}
    (new : base.nodes.size ≤ node.index) (regular : before.Regular)
    (laid : Yields (layPin node spec) before id after) : Undisturbed base source before after := by
  obtain ⟨_, added, frame, links⟩ := layPin_effect laid
  have middleRegular := (Composed.addPin _ _ _ _).keeps_regular.holds_after added regular
  have lastRegular := (Composed.layPin node spec).keeps_regular.holds_after laid regular
  exact (Undisturbed.withPin new middleRegular).trans (.of_links_eq frame lastRegular links)

theorem yields_layPins {node : NodeId} {specs : List PinSpec}
    (new : base.nodes.size ≤ node.index) (regular : before.Regular)
    (laid : Yields (layPins node specs) before () after) :
    Undisturbed base source before after := by
  unfold layPins at laid
  induction specs generalizing before with
  | nil =>
      obtain ⟨_, rfl⟩ := yields_pure_iff.mp laid
      exact .refl regular
  | cons spec rest ih =>
      obtain ⟨_, middle, first, others⟩ := yields_bind_iff.mp laid
      obtain ⟨id, firstLaid⟩ := yields_discard_iff.mp first
      have undisturbed : Undisturbed base source before middle :=
        yields_layPin new regular firstLaid
      exact undisturbed.trans (ih undisturbed.regular others)

theorem yields_spawnNode {kind : NodeKind} {node : NodeId} (regular : before.Regular)
    (extension : base.Extends before) (spawned : Yields (spawnNode kind source) before node after) :
    Undisturbed base source before after ∧ Spawned base after source kind node := by
  unfold Yields at spawned
  rcases spawnNode_cases kind source before with ⟨_, failed⟩ | grown
  · rw [failed] at spawned
    cases spawned
  · rw [grown] at spawned
    cases spawned
    refine ⟨.withNode regular extension kind, extension.nodeCount,
      ⟨⟨before.nodes.size⟩, kind, [], some source⟩, ?_, rfl, rfl⟩
    rw [node?_withNode, if_pos rfl]

theorem yields_link_added {a b : PinId} (regular : before.Regular) (sound : base.Sound)
    (extension : base.Extends before) (first : Added base before a) (second : Added base before b)
    (linked : Yields (link a b) before () after) :
    Undisturbed base source before after ∧ b ∈ after.links a := by
  have afterRegular := (link_keeps_regular a b).holds_after linked regular
  obtain ⟨frame, _, links⟩ := yields_link regular.toSound linked
  have firstNew := first.pinCount_le sound extension
  have secondNew := second.pinCount_le sound extension
  refine ⟨⟨.of_frame frame afterRegular ?_, ?_⟩, ?_⟩
  · intro id far _ _ member
    exact links.mpr (.inl member)
  · intro id far old
    rw [links]
    constructor
    · rintro (member | ⟨rfl, _⟩ | ⟨rfl, _⟩)
      · exact member
      · exact (Nat.not_lt_of_le firstNew old).elim
      · exact (Nat.not_lt_of_le secondNew old).elim
    · exact .inl
  · exact links.mpr (.inr (.inl ⟨rfl, rfl⟩))

end Edit

namespace Pass

open RigLowering.Graph

variable {base : Graph} {source : NodeId} {before after : PassState}

theorem yields_edit {α : Type} {change : Edit α} {value : α}
    (yielded : Yields (edit change) before value after) :
    Yields change before.graph value after.graph := by
  obtain ⟨result, rfl⟩ := Prod.ext_iff.mp yielded
  exact Prod.ext result rfl

theorem Apart.yields_graph {α : Type} {step : Pass α} (apart : Apart step) {value : α}
    (yielded : Yields step before value after) : after.graph = before.graph := by
  have same := apart.graph_eq before
  unfold Yields at yielded
  rwa [yielded] at same

theorem yields_query {α : Type} {answer : Graph → Except Error α} {value : α}
    (yielded : Yields (Pass.query answer) before value after) :
    after.graph = before.graph ∧ answer before.graph = .ok value :=
  Edit.yields_query_iff.mp (yields_edit yielded)

theorem yields_findPin {node : NodeId} {name : String} {direction : PinDirection} {id : PinId}
    (regular : before.graph.Regular)
    (yielded : Yields (Pass.findPin node name direction) before id after) :
    after.graph = before.graph ∧ before.graph.Port node direction name id := by
  obtain ⟨same, searched⟩ := yields_query yielded
  exact ⟨same, findPin_eq_ok regular.toSound searched⟩

theorem yields_spawnNode {kind : NodeKind} {node : NodeId} (regular : before.graph.Regular)
    (extension : base.Extends before.graph)
    (yielded : Yields (spawnNode kind source) before node after) :
    Undisturbed base source before.graph after.graph ∧
      Spawned base after.graph source kind node := by
  obtain ⟨_, middle, added, counting⟩ := yields_bind_iff.mp yielded
  obtain ⟨_, _, counted, returned⟩ := yields_bind_iff.mp counting
  obtain ⟨rfl, rfl⟩ := yields_pure_iff.mp returned
  obtain rfl := yields_modify_iff.mp counted
  have grown : Yields (Edit.spawnNode kind source) before.graph _ middle.graph := yields_edit added
  exact Edit.yields_spawnNode regular extension grown

theorem yields_layPins {kind : NodeKind} {pins : List PinSpec} {node result : NodeId}
    (primitive : kind.settings? = none) (regular : before.graph.Regular)
    (spawned : Spawned base before.graph source kind node)
    (yielded : Yields (do edit (.layPins node pins); return node) before result after) :
    result = node ∧ Undisturbed base source before.graph after.graph ∧
      Spawned base after.graph source kind node := by
  obtain ⟨⟨⟩, _, laid, returned⟩ := yields_bind_iff.mp yielded
  obtain ⟨rfl, rfl⟩ := yields_pure_iff.mp returned
  have undisturbed : Undisturbed base source before.graph after.graph :=
    Edit.yields_layPins spawned.added regular (yields_edit laid)
  exact ⟨rfl, undisturbed, spawned.mono primitive undisturbed.extended⟩

theorem yields_spawn {kind : NodeKind} {pins : List PinSpec} {node : NodeId}
    (primitive : kind.settings? = none) (regular : before.graph.Regular)
    (extension : base.Extends before.graph)
    (yielded : Yields (spawn kind pins source) before node after) :
    Undisturbed base source before.graph after.graph ∧
      Spawned base after.graph source kind node := by
  obtain ⟨_, middle, made, laying⟩ := yields_bind_iff.mp yielded
  obtain ⟨undisturbed, spawned⟩ := yields_spawnNode regular extension made
  obtain ⟨rfl, laid, stays⟩ := yields_layPins primitive undisturbed.regular spawned laying
  exact ⟨undisturbed.trans laid, stays⟩

theorem yields_spawnEvent {signature name : String} {node : NodeId}
    (regular : before.graph.Regular) (extension : base.Extends before.graph)
    (yielded : Yields (spawnEvent source signature name) before node after) :
    Undisturbed base source before.graph after.graph ∧
      ∃ functionName, Spawned base after.graph source (.event signature functionName) node := by
  obtain ⟨_, middle, made, laying⟩ := yields_bind_iff.mp yielded
  obtain ⟨functionName, reserved, naming, spawning⟩ := yields_bind_iff.mp made
  have same := Apart.yields_graph (fun _ _ _ => rfl) naming
  rw [← same] at regular extension ⊢
  obtain ⟨undisturbed, spawned⟩ := yields_spawnNode regular extension spawning
  obtain ⟨rfl, laid, stays⟩ := yields_layPins rfl undisturbed.regular spawned laying
  exact ⟨undisturbed.trans laid, functionName, stays⟩

end Pass

end RigLowering
