import RigLowering.Proofs.Restoration

namespace RigLowering

namespace Graph

def outline (graph : Graph) : String × Option String × ClassHierarchy × Nat :=
  (graph.name, graph.parentClass, graph.hierarchy, graph.nodes.size)

def freshIds (start count : Nat) : List PinId :=
  (List.range' start count).map PinId.mk

theorem mem_freshIds_iff {start count : Nat} {id : PinId} :
    id ∈ freshIds start count ↔ start ≤ id.index ∧ id.index < start + count := by
  rw [freshIds, List.mem_map]
  constructor
  · rintro ⟨index, member, rfl⟩
    exact List.mem_range'_1.mp member
  · intro bounds
    exact ⟨id.index, List.mem_range'_1.mpr bounds, rfl⟩

/-- In `after` the node has a new pin for each of the specifications and none of its old ones, and
of the rest of the graph nothing is changed but links. -/
structure Refit (specs : List PinSpec) (node : NodeId) (before after : Graph) : Prop where
  regular : after.Regular
  pinCount : after.pins.size = before.pins.size + specs.length
  own : ∀ {data}, before.node? node = some data →
    after.node? node = some { data with pins := freshIds before.pins.size specs.length }
  others : ∀ {other}, other ≠ node → after.node? other = before.node? other
  gone : ∀ {id}, before.Owns node id → after.face? id = none
  stays : ∀ {id}, id.index < before.pins.size → ¬ before.Owns node id →
    after.face? id = before.face? id ∧ after.literals id = before.literals id
  made : ∀ {index spec}, specs[index]? = some spec →
    after.HasPin node spec ⟨before.pins.size + index⟩

/-- The new pins are as they were made, and no link of the old ones is left. -/
structure Relaid (specs : List PinSpec) (node : NodeId) (before after : Graph) : Prop
    extends Refit specs node before after where
  literal : ∀ {index spec}, specs[index]? = some spec →
    after.literals ⟨before.pins.size + index⟩ = (spec.literal, none)
  mem_links_iff : ∀ {id far}, far ∈ after.links id ↔ before.Passes node id far

/-- The new pins have what could be restored of the old ones. -/
structure Rebuilt (specs : List PinSpec) (node : NodeId) (lost : Nat) (before after : Graph) : Prop
    extends Refit specs node before after where
  passes : ∀ {id far}, after.Passes node id far ↔ before.Passes node id far
  restored : ∀ {spec new far}, after.HasPin node spec new →
    (far ∈ after.links new ↔ ∃ id, before.Port node spec.direction spec.name id ∧
      far ∈ before.links id ∧ before.fits spec far)
  relit : ∀ {old spec new}, before.pinsOf node = .ok old → after.HasPin node spec new →
    after.literals new = (old.foldl spec.carryOver spec.literal, none)
  lost_eq : ∀ {old}, before.pinsOf node = .ok old →
    lost = (old.flatMap Pin.namedLinks).countP fun link => !before.restores specs link

section Refit

variable {before middle after : Graph} {node : NodeId} {specs : List PinSpec} {spec : PinSpec}
  {id far : PinId} {data : Node} {old : List Pin} {lost : Nat}

theorem Refit.owns_iff (refit : Refit specs node before after)
    (found : before.node? node = some data) :
    after.Owns node id ↔ before.pins.size ≤ id.index ∧ id.index < after.pins.size := by
  rw [← refit.regular.mem_pins_iff (refit.own found), mem_freshIds_iff, refit.pinCount]

theorem Refit.not_owns (refit : Refit specs node before after)
    (found : before.node? node = some data) (present : id.index < before.pins.size) :
    ¬ after.Owns node id :=
  fun owned => Nat.not_lt_of_le ((refit.owns_iff found).mp owned).1 present

/-- The ends of a link that was there are no new pins. -/
theorem Refit.not_owns_ends (refit : Refit specs node before after) (sound : before.Sound)
    (found : before.node? node = some data) {far : PinId} (linked : far ∈ before.links id) :
    ¬ after.Owns node id ∧ ¬ after.Owns node far := by
  obtain ⟨_, _, live, farLive, _⟩ := sound.joinable linked
  exact ⟨refit.not_owns found (lt_size_of_face? live),
    refit.not_owns found (lt_size_of_face? farLive)⟩

/-- What the node was linked to belongs to other nodes, so it is still there. -/
theorem Refit.face?_far (refit : Refit specs node before after) (sound : before.Sound)
    {far : PinId} (owned : before.Owns node id) (linked : far ∈ before.links id) :
    after.face? far = before.face? far := by
  obtain ⟨_, _, _, farLive, _⟩ := sound.joinable linked
  exact (refit.stays (lt_size_of_face? farLive) (sound.not_owns_of_mem_links linked owned)).1

theorem Refit.fits_eq (refit : Refit specs node before after) (sound : before.Sound)
    (hierarchy : after.hierarchy = before.hierarchy) {far : PinId} (owned : before.Owns node id)
    (linked : far ∈ before.links id) (spec : PinSpec) :
    after.fits spec far = before.fits spec far := by
  rw [fits, fits, hierarchy, refit.face?_far sound owned linked]

theorem Refit.exists_index (refit : Refit specs node before after)
    (found : before.node? node = some data) (hasPin : after.HasPin node spec id) :
    ∃ index, specs[index]? = some spec ∧ id = ⟨before.pins.size + index⟩ := by
  obtain ⟨new, bound⟩ := (refit.owns_iff found).mp hasPin.owns
  rw [refit.pinCount] at bound
  have inside : id.index - before.pins.size < specs.length := by omega
  have same : id = ⟨before.pins.size + (id.index - before.pins.size)⟩ :=
    congrArg PinId.mk (by omega : id.index = _)
  have asked := List.getElem?_eq_getElem inside
  have otherwise := refit.made asked
  rw [← same] at otherwise
  exact ⟨_, hasPin.spec_eq otherwise ▸ asked, same⟩

theorem Refit.carries (refit : Refit specs node before after)
    (found : before.node? node = some data) : after.Carries node specs := by
  refine ⟨_, refit.own found, List.forall₂_iff_get.mpr ⟨by simp [freshIds], ?_⟩⟩
  intro index bound _
  have hasPin := refit.made (List.getElem?_eq_getElem bound)
  simpa [freshIds] using hasPin

theorem Refit.of_frame (refit : Refit specs node before middle) (frame : middle.SameFrame after)
    (regular : after.Regular)
    (literals : ∀ {id}, ¬ middle.Owns node id → after.literals id = middle.literals id) :
    Refit specs node before after where
  regular := regular
  pinCount := frame.pinCount.trans refit.pinCount
  own := fun found => (frame.node node).trans (refit.own found)
  others := fun different => (frame.node _).trans (refit.others different)
  gone := fun owned => (frame.face _).trans (refit.gone owned)
  stays := by
    intro id present foreign
    obtain ⟨face, same⟩ := refit.stays present foreign
    refine ⟨(frame.face id).trans face, (literals ?_).trans same⟩
    rwa [Owns, face]
  made := fun asked => frame.hasPin_iff.mpr (refit.made asked)

end Refit

section Relaid

variable {before middle after : Graph} {node : NodeId} {specs : List PinSpec} {spec : PinSpec}
  {id far : PinId} {data : Node} {old : List Pin} {lost : Nat}

theorem Relaid.across (relaid : Relaid specs node before middle) (sound : before.Sound)
    (read : before.pinsOf node = .ok old) :
    ∀ pin ∈ old, ∀ far ∈ pin.links, middle.Across node pin.direction far := by
  intro pin member far linked
  obtain ⟨live, owner⟩ := (sound.mem_pinsOf_iff read).mp member
  rw [← links_of_pin? live] at linked
  have owned := (owns_iff_of_pin? live).mpr owner
  obtain ⟨face, farFound, _, opposed, away⟩ := sound.linked (face?_of_pin? live) linked
  exact ⟨face, (relaid.face?_far sound owned linked).trans farFound, opposed, owner ▸ away⟩

/-- What is restored are links of the node. -/
theorem Relaid.passes_restored (relaid : Relaid specs node before middle) (sound : before.Sound)
    (found : before.node? node = some data) (restored : Restored specs node old lost middle after) :
    after.Passes node id far ↔ before.Passes node id far := by
  have owns {id : PinId} : after.Owns node id ↔ middle.Owns node id := by
    rw [Owns, restored.frame.face, Owns]
  rw [← relaid.mem_links_iff, Passes, restored.mem_links_iff, owns, owns]
  constructor
  · rintro ⟨left | ⟨_, hasPin, _⟩ | ⟨_, hasPin, _⟩, foreign, farForeign⟩
    · exact left
    · exact (foreign hasPin.owns).elim
    · exact (farForeign hasPin.owns).elim
  · intro left
    exact ⟨.inl left, relaid.not_owns_ends sound found (relaid.mem_links_iff.mp left).1⟩

theorem Relaid.mem_links_restored (relaid : Relaid specs node before middle) (sound : before.Sound)
    (found : before.node? node = some data) (read : before.pinsOf node = .ok old)
    (hierarchy : middle.hierarchy = before.hierarchy)
    (restored : Restored specs node old lost middle after) (hasPin : middle.HasPin node spec id) :
    far ∈ after.links id ↔ ∃ former, before.Port node spec.direction spec.name former ∧
      far ∈ before.links former ∧ before.fits spec far := by
  rw [restored.mem_links_iff, relaid.mem_links_iff]
  constructor
  · rintro (passes | ⟨other, otherwise, listed, fitting⟩ | ⟨_, _, listed, _⟩)
    · exact ((relaid.not_owns_ends sound found passes.1).1 hasPin.owns).elim
    · obtain rfl := hasPin.spec_eq otherwise
      obtain ⟨former, port, linked⟩ := (sound.mem_namedLinks_iff read).mp listed
      rw [relaid.fits_eq sound hierarchy port.owns linked] at fitting
      exact ⟨former, port, linked, fitting⟩
    · obtain ⟨_, _, linked⟩ := (sound.mem_namedLinks_iff read).mp listed
      exact ((relaid.not_owns_ends sound found linked).2 hasPin.owns).elim
  · rintro ⟨former, port, linked, fitting⟩
    rw [← relaid.fits_eq sound hierarchy port.owns linked] at fitting
    exact .inr (.inl ⟨spec, hasPin, (sound.mem_namedLinks_iff read).mpr ⟨former, port, linked⟩,
      fitting⟩)

theorem Relaid.rebuilt (relaid : Relaid specs node before middle) (sound : before.Sound)
    (found : before.node? node = some data) (read : before.pinsOf node = .ok old)
    (hierarchy : middle.hierarchy = before.hierarchy)
    (restored : Restored specs node old lost middle after) :
    Rebuilt specs node lost before after where
  toRefit := relaid.toRefit.of_frame restored.frame restored.regular restored.elsewhere
  passes := relaid.passes_restored sound found restored
  restored := fun hasPin => relaid.mem_links_restored sound found read hierarchy restored
    (restored.frame.hasPin_iff.mp hasPin)
  relit := by
    intro others spec new otherRead hasPin
    cases read.symm.trans otherRead
    have laid := restored.frame.hasPin_iff.mp hasPin
    obtain ⟨index, asked, rfl⟩ := relaid.exists_index found laid
    rw [restored.literals laid, relaid.literal asked]
  lost_eq := by
    intro others otherRead
    cases read.symm.trans otherRead
    rw [restored.lost_eq]
    refine List.countP_congr fun link member => ?_
    obtain ⟨id, port, linked⟩ := (sound.mem_namedLinks_iff read).mp member
    simp only [restores, relaid.fits_eq sound hierarchy port.owns linked]

end Relaid

end Graph

namespace Edit

open RigLowering.Graph

section Outline

variable {outline : String × Option String × ClassHierarchy × Nat}

theorem modifyNode_keeps_outline (id : NodeId) (change : Node → Node) :
    Keeps (·.outline = outline) (modifyNode id change) := by
  refine (keeps_query _).bind fun _ => keeps_modify fun graph same => ?_
  rw [← same]
  simp only [Graph.outline, recordNode, Array.size_modify]

theorem modifyPin_keeps_outline (id : PinId) (change : Pin → Pin) :
    Keeps (·.outline = outline) (modifyPin id change) :=
  (keeps_query _).bind fun _ => keeps_modify fun _ same => same

theorem removePin_keeps_outline (id : PinId) : Keeps (·.outline = outline) (removePin id) :=
  (keeps_unlinkPin modifyPin_keeps_outline id).bind fun _ => (keeps_query _).bind fun _ =>
    (modifyNode_keeps_outline _ _).bind fun _ => keeps_modify fun _ same => same

theorem addPin_keeps_outline (node : NodeId) (direction : PinDirection) (pinType : PinType)
    (name : String) : Keeps (·.outline = outline) (addPin node direction pinType name) := by
  refine (keeps_query _).bind fun found => ?_
  cases found with
  | some pin => exact keeps_throw _
  | none =>
      refine keeps_get.bind fun _ => Keeps.bind ?_ fun _ =>
        (modifyNode_keeps_outline _ _).bind fun _ => keeps_pure _
      exact keeps_modify fun _ same => same

theorem takePins_keeps_outline (pins : List PinId) :
    Keeps (·.outline = outline) (takePins pins) :=
  Keeps.mapM (fun id => (keeps_query _).bind fun _ => (removePin_keeps_outline id).bind
    fun _ => keeps_pure _) _

theorem layEvaluatorPins_keeps_outline (registry : RigRegistry) (node : NodeId) :
    Keeps (·.outline = outline) (layEvaluatorPins registry node) := by
  have layKept (spec : PinSpec) : Keeps (·.outline = outline) (layPin node spec) :=
    (addPin_keeps_outline _ _ _ _).bind fun _ => (modifyPin_keeps_outline _ _).bind fun _ =>
      keeps_pure _
  exact (keeps_query _).bind fun _ => Keeps.forM (fun spec => (layKept spec).discard) _

theorem rebuild_keeps_outline (registry : RigRegistry) (node : NodeId) :
    Keeps (·.outline = outline) (rebuild registry node) := by
  have restoreKept (old : Pin) : Keeps (·.outline = outline) (restorePin node old) :=
    keeps_restorePin (keeps_link modifyPin_keeps_outline)
      (fun id _ _ => modifyPin_keeps_outline id _) node old
  exact (keeps_query _).bind fun _ => (takePins_keeps_outline _).bind fun _ =>
    (layEvaluatorPins_keeps_outline registry node).bind fun _ =>
      (Keeps.mapM restoreKept _).bind fun _ => keeps_pure _

end Outline

variable {graph before after : Graph} {node : NodeId} {specs : List PinSpec} {ids : List PinId}
  {old : List Pin}

theorem removePin_keeps_literals {kept : PinId → Option String × Option String} (id : PinId) :
    Keeps (fun graph => ∀ other, other ≠ id → graph.literals other = kept other)
      (removePin id) := by
  have unlinkKept : Keeps (fun graph => ∀ other, other ≠ id → graph.literals other = kept other)
      (unlinkPin id) := by
    intro graph same other different
    rw [unlinkPin_keeps_literals id graph rfl]
    exact same other different
  have nodeKept (owner : NodeId) : Keeps
      (fun graph => ∀ other, other ≠ id → graph.literals other = kept other)
      (modifyNode owner (·.unlistPin id)) :=
    (keeps_query _).bind fun _ => keeps_modify fun _ same => same
  refine unlinkKept.bind fun _ => (keeps_query _).bind fun pin =>
    (nodeKept _).bind fun _ => keeps_modify fun graph same other different => ?_
  have vacated : (graph.vacate id pin.owner).literals other = graph.literals other := by
    rw [literals, pin?_vacate, if_neg different, literals]
  exact vacated.trans (same other different)

/-- Pins that are not linked with one another are taken just as they are. -/
theorem takePins_takes (sound : graph.Sound) (nodup : ids.Nodup)
    (apart : ∀ first ∈ ids, ∀ second ∈ ids, second ∉ graph.links first)
    (taken : Yields (takePins ids) graph old after) :
    old = ids.filterMap graph.pin? ∧ after.pins.size = graph.pins.size ∧
      ∀ other, other ∉ ids → after.literals other = graph.literals other := by
  unfold takePins at taken
  induction ids generalizing graph old with
  | nil =>
      obtain ⟨rfl, rfl⟩ := yields_pure_iff.mp taken
      exact ⟨rfl, rfl, fun _ _ => rfl⟩
  | cons id rest ih =>
      obtain ⟨fresh, restNodup⟩ := List.nodup_cons.mp nodup
      rw [List.mapM_cons] at taken
      obtain ⟨pin, middle, taking, restTaken⟩ := yields_bind_iff.mp taken
      obtain ⟨others, last, takingRest, returned⟩ := yields_bind_iff.mp restTaken
      obtain ⟨rfl, rfl⟩ := yields_pure_iff.mp returned
      obtain ⟨_, _, read, removing⟩ := yields_bind_iff.mp taking
      obtain ⟨unchanged, live⟩ := yields_pin_iff.mp read
      rw [unchanged] at removing
      obtain ⟨⟨⟩, _, removes, done⟩ := yields_bind_iff.mp removing
      obtain ⟨rfl, rfl⟩ := yields_pure_iff.mp done
      have size := (removePin_keeps_pinCount id).holds_after removes rfl
      have literals := (removePin_keeps_literals id).holds_after removes fun _ _ => rfl
      rcases removePin_cases sound id with ⟨_, _, failed⟩ | ⟨_, succeeded, removed⟩
      · cases failed.symm.trans removes
      cases succeeded.symm.trans removes
      have stays : ∀ other ∈ rest, middle.pin? other = graph.pin? other := by
        intro other member
        have different : other ≠ id := fun same => fresh (same ▸ member)
        refine pin?_congr ?_ ?_ (literals other different)
        · rw [removed.face, if_neg different]
        · rw [removed.links, if_neg different, List.filter_eq_self]
          intro far linked
          simp only [decide_eq_true_eq]
          rintro rfl
          exact apart other (List.mem_cons_of_mem _ member) far List.mem_cons_self linked
      obtain ⟨rfl, restSize, restLiterals⟩ := ih (sound.removed removed) restNodup
        (fun first firstMember second secondMember linked =>
          apart first (List.mem_cons_of_mem _ firstMember) second
            (List.mem_cons_of_mem _ secondMember) (removed.mem_links_iff.mp linked).1) takingRest
      refine ⟨?_, restSize.trans size, fun other unlisted => ?_⟩
      · rw [List.filterMap_cons_some live, List.filterMap_congr stays]
      · rw [List.mem_cons, not_or] at unlisted
        rw [restLiterals other unlisted.2, literals other unlisted.1]

theorem layPin_literals {spec : PinSpec} {id : PinId}
    (laid : Yields (layPin node spec) before id after) :
    after.literals ⟨before.pins.size⟩ = (spec.literal, none) := by
  obtain ⟨pin, middle, added, afterAdd⟩ := yields_bind_iff.mp laid
  obtain ⟨⟨⟩, _, changed, returned⟩ := yields_bind_iff.mp afterAdd
  obtain ⟨_, rfl⟩ := yields_pure_iff.mp returned
  rcases addPin_cases node spec.direction spec.pinType spec.name before with
    ⟨_, failed⟩ | ⟨_, _, _, grown⟩
  · cases failed.symm.trans added
  · cases grown.symm.trans added
    have live := before.pin?_withPin node spec.direction spec.pinType spec.name ⟨before.pins.size⟩
    rw [if_pos rfl] at live
    rw [Yields, modifyPin_apply, live] at changed
    cases changed
    have changedLive : ((before.withPin node spec.direction spec.pinType spec.name).changePin
        ⟨before.pins.size⟩ (·.withDefaultLiteral)).pin? ⟨before.pins.size⟩ =
          some (Pin.withDefaultLiteral ⟨⟨before.pins.size⟩, node, spec.name, spec.direction,
            spec.pinType, none, none, []⟩) := by
      rw [pin?_changePin, if_pos rfl, live]
      rfl
    rw [literals_of_pin? changedLive, Pin.withDefaultLiteral, PinSpec.literal]
    by_cases input : spec.direction = .input
    · rw [if_pos input, if_pos ⟨input, rfl⟩]
    · rw [if_neg input, if_neg fun both => input both.1]

/-- The pins come after all others, in the order in which they are asked for. -/
theorem layPins_effect {data : Node} (found : before.node? node = some data)
    (laid : Yields (layPins node specs) before () after) :
    after.node? node =
        some { data with pins := data.pins ++ freshIds before.pins.size specs.length } ∧
      after.pins.size = before.pins.size + specs.length ∧
      ∀ {index spec}, specs[index]? = some spec →
        after.HasPin node spec ⟨before.pins.size + index⟩ ∧
          after.literals ⟨before.pins.size + index⟩ = (spec.literal, none) := by
  induction specs generalizing before data with
  | nil =>
      obtain ⟨_, rfl⟩ := yields_pure_iff.mp laid
      simp [found, freshIds]
  | cons spec rest ih =>
      obtain ⟨_, middle, first, others⟩ := yields_bind_iff.mp laid
      obtain ⟨id, firstLaid⟩ := yields_discard_iff.mp first
      have literals := layPin_literals firstLaid
      have hasPin := layPin_hasPin firstLaid
      obtain ⟨rfl, _, frame, _⟩ := layPin_effect firstLaid
      have size : middle.pins.size = before.pins.size + 1 := by
        rw [frame.pinCount, size_pins_withPin]
      have middleFound : middle.node? node = some (data.listPin ⟨before.pins.size⟩) := by
        rw [frame.node, node?_withPin, if_pos rfl, found]
        rfl
      obtain ⟨node, pinCount, made⟩ := ih middleFound others
      obtain ⟨_, _, _, stays, _⟩ := layPins_frame others
      refine ⟨?_, ?_, ?_⟩
      · rw [node, size, Node.listPin, List.append_assoc]
        rfl
      · rw [pinCount, size, List.length_cons]
        omega
      · intro index other asked
        cases index with
        | zero =>
            cases asked
            obtain ⟨sameFace, sameLiterals⟩ := stays ⟨before.pins.size⟩ (by rw [size]; simp)
            rw [Nat.add_zero, sameLiterals]
            refine ⟨?_, literals⟩
            obtain ⟨face, faceFound, rest⟩ := hasPin
            exact ⟨face, sameFace.trans faceFound, rest⟩
        | succ index =>
            rw [show before.pins.size + (index + 1) = middle.pins.size + index by omega]
            exact made asked

/-- What is left of a graph and of the node when the old pins are gone. -/
theorem bare_of_takePins {data : Node} {bare : Graph} (regular : graph.Regular)
    (found : graph.node? node = some data) (taken : Yields (takePins data.pins) graph old bare) :
    graph.pinsOf node = .ok old ∧ graph.Cleared bare data.pins ∧
      bare.node? node = some { data with pins := [] } ∧ bare.pins.size = graph.pins.size ∧
      ∀ id, ¬ graph.Owns node id → bare.literals id = graph.literals id := by
  have listed {id : PinId} (member : id ∈ data.pins) : graph.Owns node id :=
    regular.listed found member
  obtain ⟨_, _, ran, cleared, _⟩ := takePins_apply regular.toSound (regular.pinsNodup found)
    fun id member => (listed member).imp fun _ => And.left
  cases ran.symm.trans taken
  obtain ⟨rfl, size, literals⟩ := takePins_takes regular.toSound (regular.pinsNodup found)
    (fun first firstMember second secondMember linked =>
      regular.not_owns_of_mem_links linked (listed firstMember) (listed secondMember)) taken
  refine ⟨regular.pinsOf_eq found, cleared, ?_, size, fun id foreign => ?_⟩
  · rw [cleared.node, found, Option.map_some, Node.unlistPins]
    simp
  · exact literals id (mt listed foreign)

theorem relaid_of_layPins {data : Node} {bare laid : Graph} (regular : graph.Regular)
    (found : graph.node? node = some data) (taken : Yields (takePins data.pins) graph old bare)
    (done : Yields (layPins node specs) bare () laid) (laidRegular : laid.Regular) :
    Relaid specs node graph laid := by
  obtain ⟨_, cleared, bareFound, size, bareLiterals⟩ := bare_of_takePins regular found taken
  obtain ⟨laidFound, laidSize, made⟩ := layPins_effect bareFound done
  obtain ⟨_, _, others, stays, _⟩ := layPins_frame done
  have listed {id : PinId} : id ∈ data.pins ↔ graph.Owns node id := regular.mem_pins_iff found
  rw [size] at laidSize laidFound
  simp only [size] at made stays
  refine ⟨⟨laidRegular, laidSize, ?_, ?_, ?_, ?_, fun asked => (made asked).1⟩,
    fun asked => (made asked).2, ?_⟩
  · intro other otherFound
    cases found.symm.trans otherFound
    rw [laidFound, List.nil_append]
  · intro other different
    rw [others other different]
    exact cleared.node?_eq regular.toSound fun id member owned =>
      different (owned.unique (listed.mp member))
  · intro id owned
    have present := owned.lt_size
    rw [(stays id present).1, cleared.face, if_pos (listed.mpr owned)]
  · intro id present foreign
    rw [(stays id present).1, (stays id present).2, cleared.face, if_neg (mt listed.mp foreign)]
    exact ⟨rfl, bareLiterals id foreign⟩
  · intro id far
    rw [yields_layPins_links done, cleared.links, Passes, ← listed, ← listed]
    split
    · next member => simp [member]
    · next unlisted => simp [unlisted]

theorem rebuilt_of_rebuild {registry : RigRegistry} {settings : EvaluatorSettings}
    (built : registry.Built) (regular : graph.Regular) (evaluates : graph.Evaluates node settings) :
    ∃ lost after, Yields (rebuild registry node) graph lost after ∧
      Rebuilt (registry.evaluatorPins settings) node lost graph after := by
  obtain ⟨lost, after, rebuilt, _⟩ := rebuild_carries built regular evaluates
  refine ⟨lost, after, rebuilt, ?_⟩
  obtain ⟨data, _, read, taking⟩ := yields_bind_iff.mp rebuilt
  obtain ⟨unchanged, found⟩ := yields_node_iff.mp read
  rw [unchanged] at taking
  obtain ⟨old, bare, taken, laying⟩ := yields_bind_iff.mp taking
  obtain ⟨⟨⟩, laid, done, restoring⟩ := yields_bind_iff.mp laying
  obtain ⟨counts, _, restored, returned⟩ := yields_bind_iff.mp restoring
  obtain ⟨rfl, rfl⟩ := yields_pure_iff.mp returned
  have bareRegular := (takePins_keeps_regular _).holds_after taken regular
  obtain ⟨oldRead, _, bareFound, _⟩ := bare_of_takePins regular found taken
  obtain ⟨asked, _, query, laidPins⟩ := yields_bind_iff.mp done
  obtain ⟨same, answered⟩ := yields_query_iff.mp query
  rw [same] at laidPins
  have bareEvaluates : bare.Evaluates node settings := by
    obtain ⟨other, otherFound, read⟩ := evaluates
    cases found.symm.trans otherFound
    exact ⟨_, bareFound, read⟩
  obtain rfl := bareEvaluates.unique (settings_eq_ok_iff.mp answered)
  have laidRegular := (Composed.layPins node _).keeps_regular.holds_after laidPins bareRegular
  have bareOutline := (takePins_keeps_outline _).holds_after taken rfl
  have laidOutline := (layEvaluatorPins_keeps_outline registry node).holds_after done bareOutline
  have relaid := relaid_of_layPins regular found taken laidPins laidRegular
  exact relaid.rebuilt regular.toSound found oldRead
    (congrArg (fun outline => outline.2.2.1) laidOutline)
    (restored_of_mapM laidRegular (RigRegistry.evaluatorPins_pairwise built settings)
      (relaid.carries found) (relaid.across regular.toSound oldRead) restored)

end Edit

end RigLowering
