import RigLowering.Graph.Audit
import RigLowering.Proofs.Frames

namespace RigLowering

namespace Graph

/-! What an audit asks of a graph, said of what can be looked up in it. -/

structure Sound (graph : Graph) : Prop where
  nodeId : ∀ {id node}, graph.node? id = some node → node.id = id
  faceId : ∀ {id face}, graph.face? id = some face → face.id = id
  listed : ∀ {id node pin}, graph.node? id = some node → pin ∈ node.pins →
    ∃ face, graph.face? pin = some face ∧ face.owner = id
  owned : ∀ {id face}, graph.face? id = some face →
    ∃ owner, graph.node? face.owner = some owner ∧ id ∈ owner.pins
  linked : ∀ {id far face}, graph.face? id = some face → far ∈ graph.links id →
    ∃ farFace, graph.face? far = some farFace ∧ id ∈ graph.links far ∧
      farFace.direction ≠ face.direction ∧ farFace.owner ≠ face.owner

theorem mem_livePins_iff {graph : Graph} {pin : Pin} :
    pin ∈ graph.livePins ↔ ∃ id, graph.pin? id = some pin := by
  simp only [livePins, List.mem_filterMap, id_eq, exists_eq_right, Array.mem_toList_iff,
    Array.mem_iff_getElem?, pin?, Option.join_eq_some_iff]
  constructor
  · rintro ⟨index, found⟩
    exact ⟨⟨index⟩, found⟩
  · rintro ⟨id, found⟩
    exact ⟨id.index, found⟩

theorem mem_nodes_iff {graph : Graph} {node : Node} :
    node ∈ graph.nodes.toList ↔ ∃ id, graph.node? id = some node := by
  rw [Array.mem_toList_iff, Array.mem_iff_getElem?]
  constructor
  · rintro ⟨index, found⟩
    exact ⟨⟨index⟩, found⟩
  · rintro ⟨id, found⟩
    exact ⟨id.index, found⟩

private theorem andThen_eq_ok_iff {first next : Except Error Unit} :
    (first >>= fun _ => next) = .ok () ↔ first = .ok () ∧ next = .ok () := by
  rw [bind_eq_ok_iff]
  constructor
  · rintro ⟨_, firstHolds, nextHolds⟩
    exact ⟨firstHolds, nextHolds⟩
  · rintro ⟨firstHolds, nextHolds⟩
    exact ⟨(), firstHolds, nextHolds⟩

private theorem forM_eq_ok_iff {α : Type} {check : α → Except Error Unit} {values : List α} :
    values.forM check = .ok () ↔ ∀ value ∈ values, check value = .ok () := by
  induction values with
  | nil => exact ⟨fun _ _ member => (nomatch member), fun _ => rfl⟩
  | cons value rest ih =>
      change (check value >>= fun _ => rest.forM check) = .ok () ↔ _
      rw [andThen_eq_ok_iff, List.forall_mem_cons, ih]

theorem corruptUnless_eq_ok_iff {holds : Bool} {defect : GraphDefect} :
    corruptUnless holds defect = .ok () ↔ holds = true := by
  cases holds with
  | false => exact ⟨fun equation => (nomatch equation), fun equation => (nomatch equation)⟩
  | true => exact ⟨fun _ => rfl, fun _ => rfl⟩

theorem checkNodePlaces_iff {graph : Graph} :
    (graph.nodes.toList.zipIdx.forM fun (node, index) => checkNodePlace node index) = .ok () ↔
      ∀ {id node}, graph.node? id = some node → node.id = id := by
  rw [forM_eq_ok_iff]
  constructor
  · intro checked id node found
    have place : (node, id.index) ∈ graph.nodes.toList.zipIdx := by
      rw [List.mem_zipIdx_iff_getElem?, Array.getElem?_toList]
      exact found
    have same := checked _ place
    simp only [checkNodePlace, corruptUnless_eq_ok_iff, decide_eq_true_eq] at same
    cases id
    cases nodeId : node.id
    rw [nodeId] at same
    exact congrArg NodeId.mk same
  · rintro places ⟨node, index⟩ member
    rw [List.mem_zipIdx_iff_getElem?, Array.getElem?_toList] at member
    have same : node.id = ⟨index⟩ := places member
    simp [checkNodePlace, corruptUnless_eq_ok_iff, same]

theorem checkPinPlaces_iff {graph : Graph} :
    (graph.pins.toList.zipIdx.forM fun (place, index) => checkPinPlace place index) = .ok () ↔
      ∀ {id pin}, graph.pin? id = some pin → pin.id = id := by
  rw [forM_eq_ok_iff]
  constructor
  · intro checked id pin found
    have place : (some pin, id.index) ∈ graph.pins.toList.zipIdx := by
      rw [List.mem_zipIdx_iff_getElem?, Array.getElem?_toList]
      exact Option.join_eq_some_iff.mp found
    have same := checked _ place
    simp only [checkPinPlace, corruptUnless_eq_ok_iff, decide_eq_true_eq] at same
    cases id
    cases pinId : pin.id
    rw [pinId] at same
    exact congrArg PinId.mk same
  · rintro places ⟨place, index⟩ member
    rw [List.mem_zipIdx_iff_getElem?, Array.getElem?_toList] at member
    cases place with
    | none => rfl
    | some pin =>
        have same : pin.id = ⟨index⟩ := places (Option.join_eq_some_iff.mpr member)
        simp [checkPinPlace, corruptUnless_eq_ok_iff, same]

private theorem checkListedPin_iff {graph : Graph} {node : Node} {id : PinId} :
    graph.checkListedPin node id = .ok () ↔
      ∃ pin, graph.pin? id = some pin ∧ pin.owner = node.id := by
  unfold checkListedPin
  cases graph.pin? id <;> simp [corruptUnless_eq_ok_iff]

private theorem checkOwner_iff {graph : Graph} {pin : Pin} :
    graph.checkOwner pin = .ok () ↔
      ∃ owner, graph.node? pin.owner = some owner ∧ pin.id ∈ owner.pins := by
  unfold checkOwner
  cases graph.node? pin.owner <;> simp [corruptUnless_eq_ok_iff]

private theorem checkLink_iff {graph : Graph} {pin : Pin} {id : PinId} :
    graph.checkLink pin id = .ok () ↔
      ∃ far, graph.pin? id = some far ∧ pin.id ∈ far.links ∧
        far.direction ≠ pin.direction ∧ far.owner ≠ pin.owner := by
  unfold checkLink
  cases graph.pin? id with
  | none => simp
  | some far => simp [andThen_eq_ok_iff, corruptUnless_eq_ok_iff]

private theorem checkNodes_iff {graph : Graph} :
    (graph.nodes.toList.forM fun node => node.pins.forM (graph.checkListedPin node)) = .ok () ↔
      ∀ {id node pin}, graph.node? id = some node → pin ∈ node.pins →
        ∃ face, graph.face? pin = some face ∧ face.owner = node.id := by
  simp only [forM_eq_ok_iff, checkListedPin_iff, mem_nodes_iff, face?, Option.map_eq_some_iff]
  constructor
  · intro checked id node pin found member
    obtain ⟨data, live, owner⟩ := checked node ⟨id, found⟩ pin member
    exact ⟨data.face, ⟨data, live, rfl⟩, owner⟩
  · rintro listed node ⟨id, found⟩ pin member
    obtain ⟨face, ⟨data, live, rfl⟩, owner⟩ := listed found member
    exact ⟨data, live, owner⟩

private theorem checkPins_iff {graph : Graph} :
    (graph.livePins.forM fun pin => do
        graph.checkOwner pin
        pin.links.forM (graph.checkLink pin) : Except Error Unit) = .ok () ↔
      ∀ {id pin}, graph.pin? id = some pin →
        (∃ owner, graph.node? pin.owner = some owner ∧ pin.id ∈ owner.pins) ∧
          ∀ far ∈ pin.links, ∃ data, graph.pin? far = some data ∧ pin.id ∈ data.links ∧
            data.direction ≠ pin.direction ∧ data.owner ≠ pin.owner := by
  simp only [forM_eq_ok_iff, andThen_eq_ok_iff, checkOwner_iff, checkLink_iff, mem_livePins_iff]
  constructor
  · intro checked id pin found
    exact checked pin ⟨id, found⟩
  · rintro pins pin ⟨id, found⟩
    exact pins found

theorem audit_eq_ok_iff {graph : Graph} : graph.audit = .ok () ↔ graph.Sound := by
  change (_ >>= fun _ => _ >>= fun _ => _ >>= fun _ => _ : Except Error Unit) = .ok () ↔ _
  rw [andThen_eq_ok_iff, andThen_eq_ok_iff, andThen_eq_ok_iff, checkNodePlaces_iff,
    checkPinPlaces_iff, checkNodes_iff, checkPins_iff]
  constructor
  · rintro ⟨nodeId, pinId, listed, pins⟩
    refine ⟨nodeId, ?_, ?_, ?_, ?_⟩
    · intro id face found
      obtain ⟨pin, live, rfl, _⟩ := exists_pin?_of_face? found
      exact pinId live
    · intro id node pin found member
      rw [← nodeId found]
      exact listed found member
    · intro id face found
      obtain ⟨pin, live, rfl, _⟩ := exists_pin?_of_face? found
      rw [← pinId live]
      exact (pins live).1
    · intro id far face found member
      obtain ⟨pin, live, rfl, same⟩ := exists_pin?_of_face? found
      obtain ⟨data, farLive, back, direction, owner⟩ := (pins live).2 far (same ▸ member)
      rw [pinId live] at back
      exact ⟨data.face, face?_of_pin? farLive, links_of_pin? farLive ▸ back, direction, owner⟩
  · intro sound
    have pinId {id : PinId} {pin : Pin} (live : graph.pin? id = some pin) : pin.id = id :=
      sound.faceId (face?_of_pin? live)
    refine ⟨sound.nodeId, pinId, ?_, ?_⟩
    · intro id node pin found member
      rw [sound.nodeId found]
      exact sound.listed found member
    · intro id pin live
      rw [pinId live]
      refine ⟨sound.owned (face?_of_pin? live), ?_⟩
      intro far member
      obtain ⟨farFace, farFound, back, direction, owner⟩ :=
        sound.linked (face?_of_pin? live) (links_of_pin? live ▸ member)
      obtain ⟨data, farLive, rfl, same⟩ := exists_pin?_of_face? farFound
      exact ⟨data, farLive, same ▸ back, direction, owner⟩

theorem Sound.pin?_of_mem_livePins {graph : Graph} (sound : graph.Sound) {pin : Pin}
    (member : pin ∈ graph.livePins) : graph.pin? pin.id = some pin := by
  obtain ⟨id, live⟩ := mem_livePins_iff.mp member
  rwa [show pin.id = id from sound.faceId (face?_of_pin? live)]

/-- The graph passes its audit, no list of pins or links has an entry twice, and no two pins of a
node share name and direction. -/
structure WellFormed (graph : Graph) : Prop where
  audited : graph.audit = .ok ()
  pinsOnce : ∀ node ∈ graph.nodes.toList, node.pins.Nodup
  linksOnce : ∀ pin ∈ graph.livePins, pin.links.Nodup
  namesOnce : ∀ first ∈ graph.livePins, ∀ second ∈ graph.livePins,
    first.owner = second.owner → first.name = second.name →
      first.direction = second.direction → first.id = second.id

structure Regular (graph : Graph) : Prop extends Sound graph where
  pinsNodup : ∀ {id node}, graph.node? id = some node → node.pins.Nodup
  linksNodup : ∀ id, (graph.links id).Nodup
  namesUnique : ∀ {first second firstFace secondFace}, graph.face? first = some firstFace →
    graph.face? second = some secondFace → firstFace.owner = secondFace.owner →
      firstFace.name = secondFace.name → firstFace.direction = secondFace.direction →
        first = second

theorem wellFormed_iff_regular {graph : Graph} : graph.WellFormed ↔ graph.Regular := by
  constructor
  · rintro ⟨audited, pinsOnce, linksOnce, namesOnce⟩
    have sound := audit_eq_ok_iff.mp audited
    refine ⟨sound, fun found => pinsOnce _ (mem_nodes_iff.mpr ⟨_, found⟩), ?_, ?_⟩
    · intro id
      cases live : graph.pin? id with
      | none => simp [links, live]
      | some pin =>
          rw [links_of_pin? live]
          exact linksOnce pin (mem_livePins_iff.mpr ⟨id, live⟩)
    · intro first second firstFace secondFace firstFound secondFound owner name direction
      obtain ⟨firstPin, firstLive, rfl, _⟩ := exists_pin?_of_face? firstFound
      obtain ⟨secondPin, secondLive, rfl, _⟩ := exists_pin?_of_face? secondFound
      have same := namesOnce firstPin (mem_livePins_iff.mpr ⟨_, firstLive⟩) secondPin
        (mem_livePins_iff.mpr ⟨_, secondLive⟩) owner name direction
      rw [← sound.faceId firstFound, ← sound.faceId secondFound]
      exact same
  · intro regular
    refine ⟨audit_eq_ok_iff.mpr regular.toSound, ?_, ?_, ?_⟩
    · intro node member
      obtain ⟨id, found⟩ := mem_nodes_iff.mp member
      exact regular.pinsNodup found
    · intro pin member
      obtain ⟨id, live⟩ := mem_livePins_iff.mp member
      exact links_of_pin? live ▸ regular.linksNodup id
    · intro first firstMember second secondMember owner name direction
      exact regular.namesUnique (face?_of_pin? (regular.pin?_of_mem_livePins firstMember))
        (face?_of_pin? (regular.pin?_of_mem_livePins secondMember)) owner name direction

end Graph

end RigLowering
