import RigLowering.EvaluatorPins
import RigLowering.Proofs.Composition
import RigLowering.Proofs.Relinking

namespace RigLowering

namespace NodeKind

theorem mapSettings_id (kind : NodeKind) : kind.mapSettings id = kind := by
  cases kind <;> rfl

theorem mapSettings_mapSettings (kind : NodeKind)
    (first second : EvaluatorSettings → EvaluatorSettings) :
    (kind.mapSettings first).mapSettings second = kind.mapSettings (second ∘ first) := by
  cases kind <;> rfl

/-- Only an evaluator has settings to change. -/
theorem mapSettings_eq_self {kind : NodeKind} (primitive : kind.settings? = none)
    (change : EvaluatorSettings → EvaluatorSettings) : kind.mapSettings change = kind := by
  cases kind with
  | evaluator settings => cases primitive
  | _ => rfl

end NodeKind

namespace Graph

/-- What `before` has `after` has too: its pins keep their faces, and its nodes are what they
were up to settings and further pins. -/
structure Extends (before after : Graph) : Prop where
  nodeCount : before.nodes.size ≤ after.nodes.size
  pinCount : before.pins.size ≤ after.pins.size
  node : ∀ {id data}, before.node? id = some data → ∃ later change,
    after.node? id = some later ∧ later.spawnedBy = data.spawnedBy ∧
      later.kind = data.kind.mapSettings change
  face : ∀ {id}, id.index < before.pins.size → after.face? id = before.face? id

theorem Extends.refl (graph : Graph) : graph.Extends graph where
  nodeCount := Nat.le_refl _
  pinCount := Nat.le_refl _
  node := fun found => ⟨_, id, found, rfl, (NodeKind.mapSettings_id _).symm⟩
  face := fun _ => rfl

theorem Extends.trans {before middle after : Graph} (first : before.Extends middle)
    (second : middle.Extends after) : before.Extends after where
  nodeCount := Nat.le_trans first.nodeCount second.nodeCount
  pinCount := Nat.le_trans first.pinCount second.pinCount
  node := by
    intro id data found
    obtain ⟨later, change, laterFound, spawnedBy, kind⟩ := first.node found
    obtain ⟨last, lastChange, lastFound, lastSpawnedBy, lastKind⟩ := second.node laterFound
    refine ⟨last, lastChange ∘ change, lastFound, lastSpawnedBy.trans spawnedBy, ?_⟩
    rw [lastKind, kind, NodeKind.mapSettings_mapSettings]
  face := fun old =>
    (second.face (Nat.lt_of_lt_of_le old first.pinCount)).trans (first.face old)

theorem SameFrame.extended {before after : Graph} (frame : before.SameFrame after) :
    before.Extends after where
  nodeCount := Nat.le_of_eq frame.nodeCount.symm
  pinCount := Nat.le_of_eq frame.pinCount.symm
  node := fun found =>
    ⟨_, id, (frame.node _).trans found, rfl, (NodeKind.mapSettings_id _).symm⟩
  face := fun _ => frame.face _

theorem Extends.face?_eq {before after : Graph} (extension : before.Extends after) {id : PinId}
    {face : PinFace} (found : before.face? id = some face) : after.face? id = some face :=
  (extension.face (lt_size_of_face? found)).trans found

theorem Extends.exists_node {before after : Graph} (extension : before.Extends after) {id : NodeId}
    (found : ∃ data, before.node? id = some data) : ∃ data, after.node? id = some data := by
  obtain ⟨data, found⟩ := found
  obtain ⟨later, _, laterFound, _⟩ := extension.node found
  exact ⟨later, laterFound⟩

/-- Where new pins go to new nodes, an old node has no new pins. -/
theorem Extends.owns_iff {before after : Graph} (extension : before.Extends after)
    (newOwner : ∀ {id face}, after.face? id = some face → before.pins.size ≤ id.index →
      before.nodes.size ≤ face.owner.index) {node : NodeId}
    (old : node.index < before.nodes.size) {id : PinId} :
    after.Owns node id ↔ before.Owns node id := by
  constructor
  · rintro ⟨face, found, owner⟩
    have idOld : id.index < before.pins.size := by
      apply Nat.lt_of_not_le
      intro new
      have late := newOwner found new
      rw [owner] at late
      exact Nat.not_lt_of_le late old
    exact ⟨face, (extension.face idOld).symm.trans found, owner⟩
  · rintro ⟨face, found, owner⟩
    exact ⟨face, extension.face?_eq found, owner⟩

/-! Where nodes change in no more than kind and origin, soundness stays. -/

def roster (graph : Graph) (id : NodeId) : Option (NodeId × List PinId) :=
  (graph.node? id).map fun node => (node.id, node.pins)

private theorem exists_node?_of_roster {before after : Graph}
    (rosters : ∀ id, after.roster id = before.roster id) {id : NodeId} {node : Node}
    (found : after.node? id = some node) :
    ∃ earlier, before.node? id = some earlier ∧ earlier.id = node.id ∧
      earlier.pins = node.pins := by
  have same := rosters id
  rw [roster, found] at same
  obtain ⟨earlier, earlierFound, equal⟩ := Option.map_eq_some_iff.mp same.symm
  obtain ⟨sameId, samePins⟩ := Prod.ext_iff.mp equal
  exact ⟨earlier, earlierFound, sameId, samePins⟩

theorem Sound.of_roster {before after : Graph} (sound : before.Sound)
    (rosters : ∀ id, after.roster id = before.roster id)
    (faces : ∀ id, after.face? id = before.face? id)
    (links : ∀ id, after.links id = before.links id) : after.Sound where
  nodeId := by
    intro id node found
    obtain ⟨earlier, earlierFound, sameId, _⟩ := exists_node?_of_roster rosters found
    exact sameId.symm.trans (sound.nodeId earlierFound)
  faceId := fun found => sound.faceId (faces _ ▸ found)
  listed := by
    intro id node pin found member
    obtain ⟨earlier, earlierFound, _, samePins⟩ := exists_node?_of_roster rosters found
    rw [faces]
    exact sound.listed earlierFound (samePins ▸ member)
  owned := by
    intro id face found
    obtain ⟨earlier, earlierFound, member⟩ := sound.owned (faces _ ▸ found)
    obtain ⟨owner, ownerFound, _, samePins⟩ :=
      exists_node?_of_roster (fun id => (rosters id).symm) earlierFound
    exact ⟨owner, ownerFound, samePins ▸ member⟩
  linked := by
    intro id far face found member
    rw [faces] at found
    rw [links] at member
    simp only [faces, links]
    exact sound.linked found member

theorem Regular.of_roster {before after : Graph} (regular : before.Regular)
    (rosters : ∀ id, after.roster id = before.roster id)
    (faces : ∀ id, after.face? id = before.face? id)
    (links : ∀ id, after.links id = before.links id) : after.Regular where
  toSound := regular.toSound.of_roster rosters faces links
  pinsNodup := by
    intro id node found
    obtain ⟨earlier, earlierFound, _, samePins⟩ := exists_node?_of_roster rosters found
    exact samePins ▸ regular.pinsNodup earlierFound
  linksNodup := fun id => links id ▸ regular.linksNodup id
  namesUnique := fun first second =>
    regular.namesUnique (faces _ ▸ first) (faces _ ▸ second)

theorem roster_changeNode (graph : Graph) (id other : NodeId) {change : Node → Node}
    (keepsId : ∀ node, (change node).id = node.id)
    (keepsPins : ∀ node, (change node).pins = node.pins) :
    (graph.changeNode id change).roster other = graph.roster other := by
  unfold roster
  rw [node?_changeNode]
  split
  · rw [Option.map_map]
    congr 1
    funext node
    exact Prod.ext (keepsId node) (keepsPins node)
  · rfl

def withNode (graph : Graph) (kind : NodeKind) (source : NodeId) : Graph :=
  { graph with nodes := graph.nodes.push ⟨⟨graph.nodes.size⟩, kind, [], none⟩ }.changeNode
    ⟨graph.nodes.size⟩ fun node => { node with spawnedBy := some source }

def withPin (graph : Graph) (node : NodeId) (direction : PinDirection) (pinType : PinType)
    (name : String) : Graph :=
  { graph with
    pins := graph.pins.push
      (some ⟨⟨graph.pins.size⟩, node, name, direction, pinType, none, none, []⟩) }.changeNode
    node (·.listPin ⟨graph.pins.size⟩)

theorem node?_withNode (graph : Graph) (kind : NodeKind) (source id : NodeId) :
    (graph.withNode kind source).node? id =
      if id.index = graph.nodes.size then some ⟨⟨graph.nodes.size⟩, kind, [], some source⟩
      else graph.node? id := by
  unfold withNode
  rw [node?_changeNode]
  simp only [node?, Array.getElem?_push]
  obtain ⟨index⟩ := id
  by_cases last : index = graph.nodes.size
  · simp [last]
  · simp [last, Ne.symm last]

theorem node?_withPin (graph : Graph) (node id : NodeId) (direction : PinDirection)
    (pinType : PinType) (name : String) :
    (graph.withPin node direction pinType name).node? id =
      if node = id then (graph.node? id).map (·.listPin ⟨graph.pins.size⟩)
      else graph.node? id :=
  node?_changeNode ..

theorem pin?_withPin (graph : Graph) (node : NodeId) (direction : PinDirection)
    (pinType : PinType) (name : String) (id : PinId) :
    (graph.withPin node direction pinType name).pin? id =
      if id.index = graph.pins.size then
        some ⟨⟨graph.pins.size⟩, node, name, direction, pinType, none, none, []⟩
      else graph.pin? id := by
  change (graph.pins.push _)[id.index]?.join = _
  rw [Array.getElem?_push]
  split
  · rfl
  · rfl

theorem size_nodes_withPin (graph : Graph) (node : NodeId) (direction : PinDirection)
    (pinType : PinType) (name : String) :
    (graph.withPin node direction pinType name).nodes.size = graph.nodes.size := by
  simp [withPin, changeNode, recordNode]

theorem face?_withPin (graph : Graph) (node : NodeId) (direction : PinDirection)
    (pinType : PinType) (name : String) (id : PinId) :
    (graph.withPin node direction pinType name).face? id =
      if id.index = graph.pins.size then
        some ⟨⟨graph.pins.size⟩, node, name, direction, pinType⟩
      else graph.face? id := by
  unfold face?
  rw [pin?_withPin]
  split
  · rfl
  · rfl

theorem links_withPin (graph : Graph) (node : NodeId) (direction : PinDirection)
    (pinType : PinType) (name : String) (id : PinId) :
    (graph.withPin node direction pinType name).links id = graph.links id := by
  unfold links
  rw [pin?_withPin]
  split
  · next last =>
      have absent : graph.pin? id = none := by simp [pin?, last]
      rw [absent]
      rfl
  · rfl

theorem withNode_extends (graph : Graph) (kind : NodeKind) (source : NodeId) :
    graph.Extends (graph.withNode kind source) where
  nodeCount := by simp [withNode, changeNode, recordNode]
  pinCount := Nat.le_refl _
  node := by
    intro id data found
    have old := lt_size_of_node? found
    refine ⟨data, fun settings => settings, ?_, rfl, (NodeKind.mapSettings_id _).symm⟩
    rw [node?_withNode, if_neg (Nat.ne_of_lt old), found]
  face := fun _ => rfl

theorem withPin_extends (graph : Graph) (node : NodeId) (direction : PinDirection)
    (pinType : PinType) (name : String) :
    graph.Extends (graph.withPin node direction pinType name) where
  nodeCount := Nat.le_of_eq (size_nodes_withPin ..).symm
  pinCount := by simp [withPin, changeNode, recordNode]
  node := by
    intro id data found
    rw [node?_withPin, found]
    split
    · exact ⟨_, fun settings => settings, rfl, rfl, (NodeKind.mapSettings_id _).symm⟩
    · exact ⟨_, fun settings => settings, rfl, rfl, (NodeKind.mapSettings_id _).symm⟩
  face := by
    intro id old
    rw [face?_withPin, if_neg (Nat.ne_of_lt old)]

theorem Sound.withNode {graph : Graph} (sound : graph.Sound) (kind : NodeKind) (source : NodeId) :
    (graph.withNode kind source).Sound where
  nodeId := by
    intro id node found
    rw [node?_withNode] at found
    split at found
    · next last =>
        cases found
        exact congrArg NodeId.mk last.symm
    · exact sound.nodeId found
  faceId := sound.faceId
  listed := by
    intro id node pin found member
    rw [node?_withNode] at found
    split at found
    · cases found
      cases member
    · exact sound.listed found member
  owned := by
    intro id face found
    obtain ⟨owner, ownerFound, member⟩ := sound.owned found
    refine ⟨owner, ?_, member⟩
    rw [node?_withNode, if_neg (Nat.ne_of_lt (lt_size_of_node? ownerFound)), ownerFound]
  linked := sound.linked

theorem Regular.withNode {graph : Graph} (regular : graph.Regular) (kind : NodeKind)
    (source : NodeId) : (graph.withNode kind source).Regular where
  toSound := regular.toSound.withNode kind source
  pinsNodup := by
    intro id node found
    rw [node?_withNode] at found
    split at found
    · cases found
      exact .nil
    · exact regular.pinsNodup found
  linksNodup := regular.linksNodup
  namesUnique := regular.namesUnique

section WithPin

variable {graph : Graph} {node : NodeId} {data : Node} {direction : PinDirection}
  {pinType : PinType} {name : String}

theorem Sound.withPin (sound : graph.Sound) (found : graph.node? node = some data) :
    (graph.withPin node direction pinType name).Sound where
  nodeId := by
    intro id other otherFound
    rw [node?_withPin] at otherFound
    split at otherFound
    · next same =>
        subst same
        rw [found] at otherFound
        cases otherFound
        exact (sound.nodeId found : data.id = _)
    · exact sound.nodeId otherFound
  faceId := by
    intro id face faceFound
    rw [face?_withPin] at faceFound
    split at faceFound
    · next last =>
        cases faceFound
        exact congrArg PinId.mk last.symm
    · exact sound.faceId faceFound
  listed := by
    intro id other pin otherFound member
    rw [node?_withPin] at otherFound
    rw [face?_withPin]
    split at otherFound
    · next same =>
        subst same
        rw [found] at otherFound
        cases otherFound
        rcases List.mem_append.mp member with old | new
        · obtain ⟨face, faceFound, owner⟩ := sound.listed found old
          rw [if_neg (Nat.ne_of_lt (lt_size_of_face? faceFound))]
          exact ⟨face, faceFound, owner⟩
        · obtain rfl := List.mem_singleton.mp new
          rw [if_pos rfl]
          exact ⟨_, rfl, rfl⟩
    · obtain ⟨face, faceFound, owner⟩ := sound.listed otherFound member
      rw [if_neg (Nat.ne_of_lt (lt_size_of_face? faceFound))]
      exact ⟨face, faceFound, owner⟩
  owned := by
    intro id face faceFound
    rw [face?_withPin] at faceFound
    rw [node?_withPin]
    split at faceFound
    · next last =>
        cases faceFound
        rw [if_pos rfl, found]
        refine ⟨_, rfl, ?_⟩
        simp [Node.listPin, ← last]
    · obtain ⟨owner, ownerFound, member⟩ := sound.owned faceFound
      split
      · rw [ownerFound]
        exact ⟨_, rfl, List.mem_append_left _ member⟩
      · exact ⟨owner, ownerFound, member⟩
  linked := by
    intro id far face faceFound member
    rw [links_withPin] at member
    obtain ⟨oldFace, farFace, oldFound, farFound, directions, owners⟩ := sound.joinable member
    have back := sound.mem_links_comm.mp member
    rw [face?_withPin, if_neg (Nat.ne_of_lt (lt_size_of_face? oldFound)), oldFound] at faceFound
    cases faceFound
    refine ⟨farFace, ?_, ?_, directions, owners⟩
    · rw [face?_withPin, if_neg (Nat.ne_of_lt (lt_size_of_face? farFound)), farFound]
    · rw [links_withPin]
      exact back

theorem Regular.withPin (regular : graph.Regular) (found : graph.node? node = some data)
    (free : ∀ pin ∈ data.pins, ∀ face, graph.face? pin = some face →
      ¬ (face.name = name ∧ face.direction = direction)) :
    (graph.withPin node direction pinType name).Regular where
  toSound := regular.toSound.withPin found
  pinsNodup := by
    intro id other otherFound
    rw [node?_withPin] at otherFound
    split at otherFound
    · next same =>
        subst same
        rw [found] at otherFound
        cases otherFound
        refine List.nodup_append.mpr ⟨regular.pinsNodup found, by simp, ?_⟩
        intro pin member last lastMember
        obtain rfl := List.mem_singleton.mp lastMember
        obtain ⟨face, faceFound, _⟩ := regular.listed found member
        rintro rfl
        exact Nat.lt_irrefl _ (lt_size_of_face? faceFound)
    · exact regular.pinsNodup otherFound
  linksNodup := fun id => by
    rw [links_withPin]
    exact regular.linksNodup id
  namesUnique := by
    have clash {id : PinId} {face : PinFace} (faceFound : graph.face? id = some face)
        (owner : face.owner = node) : ¬ (face.name = name ∧ face.direction = direction) := by
      obtain ⟨listing, listingFound, member⟩ := regular.owned faceFound
      rw [owner, found] at listingFound
      cases listingFound
      exact free id member face faceFound
    intro first second firstFace secondFace firstFound secondFound owner names directions
    rw [face?_withPin] at firstFound secondFound
    split at firstFound
    · next firstLast =>
        cases firstFound
        split at secondFound
        · next secondLast =>
            cases first
            cases second
            exact congrArg PinId.mk (firstLast.trans secondLast.symm)
        · exact (clash secondFound owner.symm ⟨names.symm, directions.symm⟩).elim
    · split at secondFound
      · cases secondFound
        exact (clash firstFound owner ⟨names, directions⟩).elim
      · exact regular.namesUnique firstFound secondFound owner names directions

end WithPin

theorem links_changePin_setLiterals (graph : Graph) (id : PinId)
    (value object : Pin → Option String) (other : PinId) :
    (graph.changePin id (·.setLiterals value object)).links other = graph.links other := by
  by_cases same : id = other
  · subst same
    cases live : graph.pin? id with
    | none => simp [links, pin?_changePin, live]
    | some pin =>
        rw [links_changePin_self _ live, links_of_pin? live]
        rfl
  · exact links_changePin_of_ne graph _ same

theorem findPinAmong_eq_ok {graph : Graph} {name : String} {direction : PinDirection}
    {ids : List PinId} {answer : Option PinId}
    (searched : graph.findPinAmong name (some direction) ids = .ok answer) :
    match answer with
    | some id => id ∈ ids ∧ ∃ face, graph.face? id = some face ∧ face.name = name ∧
        face.direction = direction
    | none => ∀ id ∈ ids, ∀ face, graph.face? id = some face →
        ¬ (face.name = name ∧ face.direction = direction) := by
  induction ids with
  | nil =>
      cases searched
      simp
  | cons id rest ih =>
      rw [findPinAmong] at searched
      obtain ⟨pin, read, compared⟩ := bind_eq_ok_iff.mp searched
      have live := face?_of_pin? (pin_eq_ok_iff.mp read)
      split at compared
      · next matching =>
          cases compared
          simp only [Option.all_some, decide_eq_true_eq] at matching
          exact ⟨by simp, pin.face, live, matching.1, matching.2.symm⟩
      · next other =>
          simp only [Option.all_some, decide_eq_true_eq] at other
          have found := ih compared
          cases answer with
          | some _ => exact ⟨List.mem_cons_of_mem _ found.1, found.2⟩
          | none =>
              intro listed member face faceFound
              rcases List.mem_cons.mp member with rfl | later
              · rw [live] at faceFound
                cases faceFound
                exact fun both => other ⟨both.1, both.2.symm⟩
              · exact found listed later face faceFound

theorem findPin?_of_node? {graph : Graph} {node : NodeId} {data : Node}
    (found : graph.node? node = some data) (name : String) (direction : Option PinDirection) :
    graph.findPin? node name direction = graph.findPinAmong name direction data.pins := by
  unfold findPin? Graph.node
  rw [found]
  rfl

theorem findPin?_of_no_node {graph : Graph} {node : NodeId} (absent : graph.node? node = none)
    (name : String) (direction : Option PinDirection) :
    graph.findPin? node name direction = .error (.nodeNotFound node) := by
  unfold findPin? Graph.node
  rw [absent]
  rfl

theorem findPin_eq_ok {graph : Graph} (sound : graph.Sound) {node : NodeId} {name : String}
    {direction : PinDirection} {id : PinId}
    (searched : graph.findPin node name (some direction) = .ok id) :
    ∃ face, graph.face? id = some face ∧ face.owner = node ∧ face.direction = direction ∧
      face.name = name := by
  obtain ⟨answer, looked, decided⟩ := bind_eq_ok_iff.mp searched
  obtain ⟨data, read, answered⟩ := bind_eq_ok_iff.mp looked
  cases answer with
  | none => cases decided
  | some id =>
      cases decided
      obtain ⟨member, face, faceFound, named, directed⟩ := findPinAmong_eq_ok answered
      obtain ⟨listedFace, listedFound, owner⟩ := sound.listed (node_eq_ok_iff.mp read) member
      rw [faceFound] at listedFound
      cases listedFound
      exact ⟨face, faceFound, owner, directed, named⟩

end Graph

namespace Edit

open RigLowering.Graph

theorem spawnNode_eq_ok {kind : NodeKind} {source : NodeId} {graph : Graph} {data : Node}
    (sourceFound : graph.node? source = some data) :
    spawnNode kind source graph = (.ok ⟨graph.nodes.size⟩, graph.withNode kind source) := by
  let grown := { graph with nodes := graph.nodes.push ⟨⟨graph.nodes.size⟩, kind, [], none⟩ }
  have found : grown.node? ⟨graph.nodes.size⟩ = some ⟨⟨graph.nodes.size⟩, kind, [], none⟩ :=
    Array.getElem?_push_size
  unfold spawnNode
  rw [bind_apply, node_apply, node_eq_ok_iff.mpr sourceFound]
  simp only
  rw [bind_apply, show addNode kind graph = (.ok ⟨graph.nodes.size⟩, grown) from rfl]
  simp only
  rw [bind_apply, modifyNode_apply, found]
  rfl

theorem spawnNode_cases (kind : NodeKind) (source : NodeId) (graph : Graph) :
    (∃ error, spawnNode kind source graph = (.error error, graph)) ∨
      spawnNode kind source graph = (.ok ⟨graph.nodes.size⟩, graph.withNode kind source) := by
  cases found : graph.node? source with
  | none =>
      unfold spawnNode
      rw [bind_apply, node_apply, Graph.node, found]
      exact .inl ⟨_, rfl⟩
  | some data => exact .inr (spawnNode_eq_ok found)

theorem addPin_cases (node : NodeId) (direction : PinDirection) (pinType : PinType)
    (name : String) (graph : Graph) :
    (∃ error, addPin node direction pinType name graph = (.error error, graph)) ∨
      ∃ data, graph.node? node = some data ∧
        (∀ pin ∈ data.pins, ∀ face, graph.face? pin = some face →
          ¬ (face.name = name ∧ face.direction = direction)) ∧
        addPin node direction pinType name graph =
          (.ok ⟨graph.pins.size⟩, graph.withPin node direction pinType name) := by
  unfold addPin
  rw [bind_apply, query_apply]
  cases found : graph.node? node with
  | none =>
      rw [findPin?_of_no_node found]
      exact .inl ⟨_, rfl⟩
  | some data =>
      rw [findPin?_of_node? found]
      cases searched : graph.findPinAmong name (some direction) data.pins with
      | error error => exact .inl ⟨_, rfl⟩
      | ok answer =>
          cases answer with
          | some id => exact .inl ⟨_, rfl⟩
          | none =>
              refine .inr ⟨data, rfl, findPinAmong_eq_ok searched, ?_⟩
              let grown := { graph with
                pins := graph.pins.push
                  (some ⟨⟨graph.pins.size⟩, node, name, direction, pinType, none, none, []⟩) }
              have grownFound : grown.node? node = some data := found
              change (modifyNode node (·.listPin ⟨graph.pins.size⟩) >>= fun _ =>
                pure ⟨graph.pins.size⟩ : Edit PinId) grown = _
              rw [bind_apply, modifyNode_apply, grownFound]
              rfl

theorem changeLiterals_cases (id : PinId) (value object : Pin → Option String) (graph : Graph) :
    (∃ error, modifyPin id (·.setLiterals value object) graph = (.error error, graph)) ∨
      ∃ after, modifyPin id (·.setLiterals value object) graph = (.ok (), after) ∧
        graph.SameFrame after ∧ ∀ other, after.links other = graph.links other := by
  rw [modifyPin_apply]
  cases live : graph.pin? id with
  | none => exact .inl ⟨_, rfl⟩
  | some pin =>
      exact .inr ⟨_, rfl, graph.changePin_sameFrame id fun _ => rfl,
        links_changePin_setLiterals graph id value object⟩

theorem changeSettings_cases (id : NodeId) (change : EvaluatorSettings → EvaluatorSettings)
    (graph : Graph) :
    (∃ error, modifyNode id (·.mapSettings change) graph = (.error error, graph)) ∨
      modifyNode id (·.mapSettings change) graph =
        (.ok (), graph.changeNode id (·.mapSettings change)) := by
  rw [modifyNode_apply]
  cases graph.node? id with
  | none => exact .inl ⟨_, rfl⟩
  | some node => exact .inr rfl

theorem changeSettings_extends (id : NodeId) (change : EvaluatorSettings → EvaluatorSettings)
    (graph : Graph) : graph.Extends (graph.changeNode id (·.mapSettings change)) where
  nodeCount := by simp [changeNode, recordNode]
  pinCount := Nat.le_refl _
  node := by
    intro other data found
    rw [node?_changeNode, found]
    split
    · exact ⟨_, change, rfl, rfl, rfl⟩
    · exact ⟨_, fun settings => settings, rfl, rfl, (NodeKind.mapSettings_id _).symm⟩
  face := fun _ => rfl

end Edit

namespace Graph

/-! What each single operation of an expansion keeps stays whatever they come to together. -/

structure Kept (property : Graph → Prop) : Prop where
  withNode : ∀ {graph} (kind : NodeKind) (source : NodeId), property graph →
    property (graph.withNode kind source)
  withSettings : ∀ {graph} (node : NodeId) (change : EvaluatorSettings → EvaluatorSettings),
    property graph → property (graph.changeNode node (·.mapSettings change))
  withPin : ∀ {graph} {node : NodeId} {data : Node} {direction : PinDirection}
    {pinType : PinType} {name : String}, property graph → graph.node? node = some data →
      (∀ pin ∈ data.pins, ∀ face, graph.face? pin = some face →
        ¬ (face.name = name ∧ face.direction = direction)) →
        property (graph.withPin node direction pinType name)
  withLiterals : ∀ {graph} (pin : PinId) (value object : Pin → Option String), property graph →
    property (graph.changePin pin (·.setLiterals value object))
  link : ∀ a b, Keeps property (Edit.link a b)
  unlink : ∀ a b, Keeps property (Edit.unlink a b)
  unlinkPin : ∀ pin, Keeps property (Edit.unlinkPin pin)

theorem Sound.withSettings {graph : Graph} (sound : graph.Sound) (node : NodeId)
    (change : EvaluatorSettings → EvaluatorSettings) :
    (graph.changeNode node (·.mapSettings change)).Sound :=
  sound.of_roster (fun other => graph.roster_changeNode node other (fun _ => rfl) fun _ => rfl)
    (fun _ => rfl) fun _ => rfl

theorem Regular.withSettings {graph : Graph} (regular : graph.Regular) (node : NodeId)
    (change : EvaluatorSettings → EvaluatorSettings) :
    (graph.changeNode node (·.mapSettings change)).Regular :=
  regular.of_roster (fun other => graph.roster_changeNode node other (fun _ => rfl) fun _ => rfl)
    (fun _ => rfl) fun _ => rfl

theorem kept_sound : Kept Sound where
  withNode := fun kind source sound => sound.withNode kind source
  withSettings := fun node change sound => sound.withSettings node change
  withPin := fun sound found _ => sound.withPin found
  withLiterals := fun pin value object sound =>
    sound.of_links_eq (changePin_sameFrame _ pin fun _ => rfl)
      (links_changePin_setLiterals _ pin value object)
  link := Edit.link_keeps_sound
  unlink := Edit.unlink_keeps_sound
  unlinkPin := Edit.unlinkPin_keeps_sound

theorem kept_regular : Kept Regular where
  withNode := fun kind source regular => regular.withNode kind source
  withSettings := fun node change regular => regular.withSettings node change
  withPin := fun regular found free => regular.withPin found free
  withLiterals := fun pin value object regular =>
    regular.of_links_eq (changePin_sameFrame _ pin fun _ => rfl)
      (links_changePin_setLiterals _ pin value object)
  link := Edit.link_keeps_regular
  unlink := Edit.unlink_keeps_regular
  unlinkPin := Edit.unlinkPin_keeps_regular

end Graph

namespace Edit

open RigLowering.Graph

theorem Composed.keeps {property : Graph → Prop} (kept : Kept property) {α : Type}
    {edit : Edit α} (composed : edit.Composed) : Keeps property edit := by
  induction composed with
  | query steady => exact fun _ holds => holds
  | spawnNode kind source =>
      intro graph holds
      rcases spawnNode_cases kind source graph with ⟨_, failed⟩ | spawned
      · rw [failed]
        exact holds
      · rw [spawned]
        exact kept.withNode kind source holds
  | changeSettings node change =>
      intro graph holds
      rcases changeSettings_cases node change graph with ⟨_, failed⟩ | changed
      · rw [failed]
        exact holds
      · rw [changed]
        exact kept.withSettings node change holds
  | addPin node direction pinType name =>
      intro graph holds
      rcases addPin_cases node direction pinType name graph with
        ⟨_, failed⟩ | ⟨data, found, free, added⟩
      · rw [failed]
        exact holds
      · rw [added]
        exact kept.withPin holds found free
  | changeLiterals pin value object =>
      intro graph holds
      rw [modifyPin_apply]
      cases graph.pin? pin with
      | none => exact holds
      | some data => exact kept.withLiterals pin value object holds
  | link a b => exact kept.link a b
  | unlink a b => exact kept.unlink a b
  | unlinkPin pin => exact kept.unlinkPin pin
  | bind _ _ first next => exact first.bind next

theorem Composed.keeps_regular {α : Type} {edit : Edit α} (composed : edit.Composed) :
    Keeps Regular edit :=
  composed.keeps kept_regular

end Edit

end RigLowering
