import RigLowering.Proofs.Reconstruction

namespace RigLowering

namespace Graph

variable {before after : Graph} {node : NodeId} {specs : List PinSpec} {spec : PinSpec}
  {data : Node} {old new : List Pin} {lost : Nat} {id far : PinId} {link : NamedLink}

theorem restores_iff : before.restores specs link ↔
    ∃ spec ∈ specs, spec.direction = link.direction ∧ spec.name = link.name ∧
      before.fits spec link.far := by
  rw [restores, List.any_eq_true]
  simp only [Bool.and_eq_true, decide_eq_true_eq, and_assoc]

theorem Rebuilt.mem_namedLinks_iff (rebuilt : Rebuilt specs node lost before after)
    (regular : before.Regular) (found : before.node? node = some data)
    (oldRead : before.pinsOf node = .ok old) (newRead : after.pinsOf node = .ok new) :
    link ∈ new.flatMap Pin.namedLinks ↔
      link ∈ old.flatMap Pin.namedLinks ∧ before.restores specs link := by
  obtain ⟨direction, name, far⟩ := link
  have carries := rebuilt.carries found
  rw [rebuilt.regular.mem_namedLinks_iff newRead, regular.mem_namedLinks_iff oldRead, restores_iff]
  constructor
  · rintro ⟨id, ⟨face, faceFound, owner, rfl, rfl⟩, linked⟩
    have hasPin : after.HasPin node face.spec id := ⟨face, faceFound, owner, rfl⟩
    obtain ⟨former, port, formerLinked, fitting⟩ := (rebuilt.restored hasPin).mp linked
    exact ⟨⟨former, port, formerLinked⟩, face.spec, carries.mem_specs rebuilt.regular hasPin, rfl,
      rfl, fitting⟩
  · rintro ⟨⟨former, port, formerLinked⟩, spec, listed, rfl, rfl, fitting⟩
    obtain ⟨id, hasPin⟩ := carries.exists_pin listed
    exact ⟨id, hasPin.port, (rebuilt.restored hasPin).mpr ⟨former, port, formerLinked, fitting⟩⟩

/-- So many links fewer has the node, and so many links fewer has the graph. -/
theorem Rebuilt.linkCounts (rebuilt : Rebuilt specs node lost before after)
    (regular : before.Regular) (found : before.node? node = some data)
    (oldRead : before.pinsOf node = .ok old) (newRead : after.pinsOf node = .ok new) :
    (old.flatMap Pin.namedLinks).length = (new.flatMap Pin.namedLinks).length + lost ∧
      before.linkCount = after.linkCount + lost := by
  have kept : (new.flatMap Pin.namedLinks).Perm
      ((old.flatMap Pin.namedLinks).filter (before.restores specs)) := by
    refine (List.perm_ext_iff_of_nodup (rebuilt.regular.nodup_namedLinks newRead)
      ((regular.nodup_namedLinks oldRead).filter _)).mpr fun link => ?_
    rw [List.mem_filter]
    exact rebuilt.mem_namedLinks_iff regular found oldRead newRead
  have ownCounts : (old.flatMap Pin.namedLinks).length =
      (new.flatMap Pin.namedLinks).length + lost := by
    rw [kept.length_eq, ← List.countP_eq_length_filter, rebuilt.lost_eq oldRead,
      List.length_eq_countP_add_countP (before.restores specs)]
    simp only [Bool.not_eq_true, Bool.decide_eq_false]
  refine ⟨ownCounts, ?_⟩
  rw [regular.linkCount_eq_add oldRead, rebuilt.regular.linkCount_eq_add newRead, ownCounts,
    length_passingEnds_eq regular rebuilt.regular fun _ _ => rebuilt.passes]
  omega

/-- Pins of other nodes differ in links alone, and there are no others. -/
theorem Rebuilt.foreign_pins (rebuilt : Rebuilt specs node lost before after)
    (found : before.node? node = some data) :
    (∀ {id pin}, before.pin? id = some pin → pin.owner ≠ node →
      ∃ links, after.pin? id = some { pin with links }) ∧
    ∀ {id pin}, after.pin? id = some pin → pin.owner ≠ node →
      ∃ links, before.pin? id = some { pin with links } := by
  constructor
  · intro id pin live foreign
    have face := face?_of_pin? live
    obtain ⟨sameFace, sameLiterals⟩ := rebuilt.stays (lt_size_of_face? face)
      (mt (owns_iff_of_pin? live).mp foreign)
    exact ⟨_, pin?_of_face? (sameFace.trans face) (sameLiterals.trans (literals_of_pin? live))⟩
  · intro id pin live foreign
    have face := face?_of_pin? live
    have present : id.index < before.pins.size := by
      by_contra absent
      exact foreign ((owns_iff_of_pin? live).mp
        ((rebuilt.owns_iff found).mpr ⟨Nat.le_of_not_lt absent, lt_size_of_face? face⟩))
    by_cases owned : before.Owns node id
    · cases face.symm.trans (rebuilt.gone owned)
    · obtain ⟨sameFace, sameLiterals⟩ := rebuilt.stays present owned
      exact ⟨_, pin?_of_face? (sameFace.symm.trans face)
        (sameLiterals.symm.trans (literals_of_pin? live))⟩

/-- The places of the former pins are empty. -/
theorem Rebuilt.tombstone (rebuilt : Rebuilt specs node lost before after)
    (owned : before.Owns node id) : after.pins[id.index]? = some none := by
  have bound : id.index < after.pins.size :=
    rebuilt.pinCount ▸ Nat.lt_of_lt_of_le owned.lt_size (Nat.le_add_right _ _)
  have empty : after.pin? id = none := Option.map_eq_none_iff.mp (rebuilt.gone owned)
  rw [pin?, Array.getElem?_eq_getElem bound, Option.join_some] at empty
  rw [Array.getElem?_eq_getElem bound, empty]

/-- What becomes of a node and of the graph around it when the pins `old` of the node are replaced
by the pins `new`.  A link has the pin with its name and direction as its new end. -/
structure Replacement (specs : List PinSpec) (node : NodeId) (lost : Nat) (old new : List Pin)
    (before after : Graph) : Prop where
  wellFormed : after.WellFormed
  oldPins : before.pinsOf node = .ok old
  newPins : after.pinsOf node = .ok new
  layout : new.map (·.face.spec) = specs
  restored_iff : ∀ pin ∈ old, ∀ far ∈ pin.links,
    ((∃ later ∈ new, later.direction = pin.direction ∧ later.name = pin.name ∧
      far ∈ later.links ∧ later.id ∈ after.links far) ↔
    ∃ spec ∈ specs, spec.direction = pin.direction ∧ spec.name = pin.name ∧
      ∃ other, before.pin? far = some other ∧ spec.joins before.hierarchy other.pinType)
  former : ∀ later ∈ new, ∀ far ∈ later.links, ∃ pin ∈ old,
    pin.direction = later.direction ∧ pin.name = later.name ∧ far ∈ pin.links
  lost_eq : lost = (old.flatMap Pin.namedLinks).countP fun link => !before.restores specs link
  nodeLinks : ∃ kept, before.nodeLinkCount node = .ok (kept + lost) ∧
    after.nodeLinkCount node = .ok kept
  allLinks : before.linkCount = after.linkCount + lost
  tombstones : ∀ pin ∈ old, after.pins[pin.id.index]? = some none
  otherLinks : ∀ id far, after.Passes node id far ↔ before.Passes node id far
  otherNodes : ∀ other, other ≠ node → after.node? other = before.node? other
  otherPins : ∀ id pin, before.pin? id = some pin → pin.owner ≠ node →
    ∃ links, after.pin? id = some { pin with links }
  noMorePins : ∀ id pin, after.pin? id = some pin → pin.owner ≠ node →
    ∃ links, before.pin? id = some { pin with links }

theorem fits_iff_joins {graph : Graph} : graph.fits spec far ↔
    ∃ other, graph.pin? far = some other ∧ spec.joins graph.hierarchy other.pinType := by
  rw [fits, face?, Option.any_map, Option.any_eq_true]
  rfl

theorem Rebuilt.replacement (rebuilt : Rebuilt specs node lost before after)
    (regular : before.Regular) (found : before.node? node = some data) :
    ∃ old new, Replacement specs node lost old new before after := by
  obtain ⟨new, newRead, layout⟩ := (rebuilt.carries found).pinsOf
  have oldRead := regular.pinsOf_eq found
  have counts := rebuilt.linkCounts regular found oldRead newRead
  obtain ⟨others, noMore⟩ := rebuilt.foreign_pins found
  refine ⟨_, new, wellFormed_iff_regular.mpr rebuilt.regular, oldRead, newRead, layout, ?_, ?_,
    rebuilt.lost_eq oldRead, ⟨_, counts.1 ▸ nodeLinkCount_eq oldRead, nodeLinkCount_eq newRead⟩,
    counts.2, ?_, fun _ _ => rebuilt.passes, fun _ => rebuilt.others, fun _ _ => others,
    fun _ _ => noMore⟩
  · intro pin member far linked
    have old := mem_flatMap_namedLinks_iff.mpr ⟨pin, member, rfl, rfl, linked⟩
    have restores := (rebuilt.mem_namedLinks_iff regular found oldRead newRead).trans
      (and_iff_right old)
    rw [mem_flatMap_namedLinks_iff, restores_iff] at restores
    simp only [fits_iff_joins] at restores
    rw [← restores]
    refine exists_congr fun later => and_congr_right fun laterMember =>
      and_congr_right fun _ => and_congr_right fun _ => and_iff_left_of_imp fun laterLinked => ?_
    obtain ⟨laterLive, _⟩ := (rebuilt.regular.mem_pinsOf_iff newRead).mp laterMember
    rw [rebuilt.regular.mem_links_comm, links_of_pin? laterLive]
    exact laterLinked
  · intro later member far linked
    have now := mem_flatMap_namedLinks_iff.mpr ⟨later, member, rfl, rfl, linked⟩
    exact mem_flatMap_namedLinks_iff.mp
      ((rebuilt.mem_namedLinks_iff regular found oldRead newRead).mp now).1
  · intro pin member
    obtain ⟨live, owner⟩ := (regular.mem_pinsOf_iff oldRead).mp member
    exact rebuilt.tombstone ((owns_iff_of_pin? live).mpr owner)

/-- Rebuilding an evaluator restores just the links that fit its new pins and counts the others. -/
theorem WellFormed.rebuild_restores_links {registry : RigRegistry} {graph : Graph}
    {settings : EvaluatorSettings} (built : registry.Built) (wellFormed : graph.WellFormed)
    (evaluates : graph.Evaluates node settings) :
    ∃ lost old new after, (Edit.rebuild registry node).run graph = (.ok lost, after) ∧
      Replacement (registry.evaluatorPins settings) node lost old new graph after := by
  have regular := wellFormed_iff_regular.mp wellFormed
  obtain ⟨data, found, _⟩ := id evaluates
  obtain ⟨lost, after, ran, rebuilt⟩ := Edit.rebuilt_of_rebuild built regular evaluates
  obtain ⟨old, new, replacement⟩ := rebuilt.replacement regular found
  exact ⟨lost, old, new, after, ran, replacement⟩

end Graph

/-! A leg whose pins are those of an earlier version of its class and of its settings: its stride
has another type by now, and its foot has been hidden. -/

namespace StaleLeg

open RigLowering.Graph

def fields : List Field :=
  [⟨"height", .float, .input, .scalar⟩, ⟨"stride", .int, .input, .scalar⟩,
    ⟨"bone", .object "Bone", .input, .scalar⟩, ⟨"foot", .float, .output, .scalar⟩,
    ⟨"toe", .float, .output, .scalar⟩]

def registry : RigRegistry :=
  ⟨"Rig", NameMap.empty.insert "Leg" ⟨"Leg", "Rig", fields⟩⟩

theorem registryBuilt : registry.Built :=
  .register (.empty "Rig") (rfl : RigRegistry.register _ ⟨"Leg", "Rig", fields⟩ = _)

def settings : EvaluatorSettings :=
  { EvaluatorSettings.unset with rigType := some "Leg", disabledOutputs := .ofNames ["foot"] }

def graph : Graph where
  name := "StaleLeg"
  parentClass := none
  nodes := #[
    ⟨⟨0⟩, .evaluator settings, [⟨0⟩, ⟨1⟩, ⟨2⟩, ⟨3⟩, ⟨4⟩, ⟨5⟩], none⟩,
    ⟨⟨1⟩, .primitive "dial", [⟨6⟩, ⟨7⟩], none⟩,
    ⟨⟨2⟩, .primitive "gauge", [⟨8⟩, ⟨9⟩, ⟨10⟩], none⟩]
  pins := #[
    some ⟨⟨0⟩, ⟨0⟩, "height", .input, .float, some "1.5", none, [⟨6⟩]⟩,
    some ⟨⟨1⟩, ⟨0⟩, "stride", .input, .string, some "long", none, [⟨7⟩]⟩,
    some ⟨⟨2⟩, ⟨0⟩, "bone", .input, .object "Bone", none, some "Knee", []⟩,
    some ⟨⟨3⟩, ⟨0⟩, "Rig", .output, .object "Leg", none, none, [⟨8⟩]⟩,
    some ⟨⟨4⟩, ⟨0⟩, "foot", .output, .float, none, none, [⟨9⟩, ⟨10⟩]⟩,
    some ⟨⟨5⟩, ⟨0⟩, "toe", .output, .float, none, none, [⟨9⟩]⟩,
    some ⟨⟨6⟩, ⟨1⟩, "level", .output, .float, none, none, [⟨0⟩]⟩,
    some ⟨⟨7⟩, ⟨1⟩, "label", .output, .string, none, none, [⟨1⟩]⟩,
    some ⟨⟨8⟩, ⟨2⟩, "rig", .input, .anyObject, none, none, [⟨3⟩]⟩,
    some ⟨⟨9⟩, ⟨2⟩, "sum", .input, .float, none, none, [⟨4⟩, ⟨5⟩]⟩,
    some ⟨⟨10⟩, ⟨2⟩, "peak", .input, .float, none, none, [⟨4⟩]⟩]
  hierarchy := .empty
  undo := none

theorem wellFormed : graph.WellFormed where
  audited := rfl
  pinsOnce := by decide
  linksOnce := by decide
  namesOnce := by decide

theorem evaluates : graph.Evaluates ⟨0⟩ settings := by
  rw [evaluates_iff]
  rfl

theorem rebuild_loses_three :
    ((Edit.rebuild registry ⟨0⟩).run graph).1.toOption = some 3 := by
  decide +kernel

/-- The links of the stride and of the foot are lost, and the sum stays linked to the toe. -/
theorem keeps_height_and_toe : ∃ old new after,
    (Edit.rebuild registry ⟨0⟩).run graph = (.ok 3, after) ∧
    Replacement (registry.evaluatorPins settings) ⟨0⟩ 3 old new graph after ∧
    graph.linkCount = 6 ∧ after.linkCount = 3 := by
  obtain ⟨lost, old, new, after, ran, replacement⟩ :=
    WellFormed.rebuild_restores_links registryBuilt wellFormed evaluates
  have counted := rebuild_loses_three
  rw [ran] at counted
  obtain rfl : lost = 3 := Option.some.inj counted
  have before : graph.linkCount = 6 := rfl
  have whole := replacement.allLinks
  rw [before] at whole
  exact ⟨old, new, after, ran, replacement, before, by omega⟩

end StaleLeg

end RigLowering
