import RigLowering.Proofs.Lowering
import RigLowering.Proofs.PinLookups

namespace RigLowering

namespace RigRegistry

variable {registry : RigRegistry} {settings : EvaluatorSettings} {rigType : String}

theorem fieldPins_pairwise {direction : PinDirection} {disabled : NameSet}
    (fields : FieldsSound (registry.fieldsOf rigType)) :
    PinSpec.Distinct (registry.fieldPins rigType direction disabled) := by
  unfold fieldPins enabledFields PinSpec.Distinct
  rw [List.pairwise_map]
  apply List.Pairwise.imp_of_mem _ (fields.apart.filter _)
  intro first second firstMember secondMember apart clash
  have toward {field : Field} (member : field ∈ (registry.fieldsOf rigType).filter fun field =>
      field.direction = direction && !disabled.contains field.name) :
      field.direction = direction := by
    have matching := (List.mem_filter.mp member).2
    simp only [Bool.and_eq_true, decide_eq_true_eq] at matching
    exact matching.1
  exact apart ⟨(toward firstMember).trans (toward secondMember).symm, clash.2.symm⟩

theorem direction_eq_of_mem_fieldPins {direction : PinDirection} {disabled : NameSet}
    {spec : PinSpec} (member : spec ∈ registry.fieldPins rigType direction disabled) :
    spec.direction = direction := by
  obtain ⟨field, _, rfl⟩ := List.mem_map.mp member
  rfl

theorem name_ne_rig_of_mem_fieldPins {direction : PinDirection} {disabled : NameSet}
    {spec : PinSpec} (fields : FieldsSound (registry.fieldsOf rigType))
    (member : spec ∈ registry.fieldPins rigType direction disabled) : spec.name ≠ PinName.rig := by
  obtain ⟨field, enabled, rfl⟩ := List.mem_map.mp member
  exact Field.name_ne_rig (fields.sound field (List.mem_filter.mp enabled).1)

/-- No two pins of an evaluator share direction and name. -/
theorem evaluatorPins_pairwise (built : registry.Built) (settings : EvaluatorSettings) :
    PinSpec.Distinct (registry.evaluatorPins settings) := by
  unfold evaluatorPins
  split
  · exact .nil
  · next rigType bound =>
      have fields := built.rooted.fields (.inr (rigType?_eq_some bound))
      rw [List.append_assoc, PinSpec.Distinct, List.pairwise_append]
      refine ⟨fieldPins_pairwise fields, ?_, ?_⟩
      · rw [List.singleton_append, List.pairwise_cons]
        exact ⟨fun spec member clash => name_ne_rig_of_mem_fieldPins fields member clash.2,
          fieldPins_pairwise fields⟩
      · intro first firstMember second secondMember clash
        have input := direction_eq_of_mem_fieldPins firstMember
        have output : second.direction = .output := by
          rcases List.mem_append.mp secondMember with rig | field
          · rw [List.mem_singleton.mp rig]
          · exact direction_eq_of_mem_fieldPins field
        cases output.symm.trans (clash.1.trans input)

theorem rig_mem_evaluatorPins (bound : registry.rigType? settings = some rigType) :
    ⟨.output, .object rigType, PinName.rig⟩ ∈ registry.evaluatorPins settings := by
  unfold evaluatorPins
  rw [bound]
  simp

end RigRegistry

namespace Graph

theorem findPinAmong_eq_none {graph : Graph} {name : String} {direction : PinDirection}
    {ids : List PinId} (others : ∀ id ∈ ids, ∃ face, graph.face? id = some face ∧
      ¬ (face.name = name ∧ face.direction = direction)) :
    graph.findPinAmong name (some direction) ids = .ok none := by
  induction ids with
  | nil => rfl
  | cons id rest ih =>
      obtain ⟨face, found, different⟩ := others id (by simp)
      obtain ⟨pin, live, rfl, _⟩ := exists_pin?_of_face? found
      rw [findPinAmong]
      refine bind_eq_ok_iff.mpr ⟨pin, pin_eq_ok_iff.mpr live, ?_⟩
      rw [if_neg]
      · exact ih fun other member => others other (List.mem_cons_of_mem _ member)
      · simp only [Option.all_some, decide_eq_true_eq]
        exact fun same => different ⟨same.1, same.2.symm⟩

/-- The node lists one pin for each of the specifications, in their order, and no other. -/
def Carries (graph : Graph) (node : NodeId) (specs : List PinSpec) : Prop :=
  ∃ data, graph.node? node = some data ∧ List.Forall₂ (graph.HasPin node) specs data.pins

section Carries

variable {graph : Graph} {node : NodeId} {specs : List PinSpec} {spec : PinSpec} {ids : List PinId}

theorem exists_spec_of_mem (pins : List.Forall₂ (graph.HasPin node) specs ids) {id : PinId}
    (member : id ∈ ids) : ∃ spec ∈ specs, graph.HasPin node spec id := by
  induction pins with
  | nil => cases member
  | cons hasPin _ ih =>
      rcases List.mem_cons.mp member with rfl | later
      · exact ⟨_, by simp, hasPin⟩
      · obtain ⟨spec, listed, hasPin⟩ := ih later
        exact ⟨spec, List.mem_cons_of_mem _ listed, hasPin⟩

private theorem exists_pin_of_mem (pins : List.Forall₂ (graph.HasPin node) specs ids)
    (listed : spec ∈ specs) : ∃ id ∈ ids, graph.HasPin node spec id := by
  induction pins with
  | nil => cases listed
  | cons hasPin _ ih =>
      rcases List.mem_cons.mp listed with rfl | later
      · exact ⟨_, by simp, hasPin⟩
      · obtain ⟨id, member, hasPin⟩ := ih later
        exact ⟨id, List.mem_cons_of_mem _ member, hasPin⟩

theorem Carries.exists_pin (carries : graph.Carries node specs) (listed : spec ∈ specs) :
    ∃ id, graph.HasPin node spec id := by
  obtain ⟨data, _, pins⟩ := carries
  obtain ⟨id, _, hasPin⟩ := exists_pin_of_mem pins listed
  exact ⟨id, hasPin⟩

private theorem findPinAmong_of_distinct (pins : List.Forall₂ (graph.HasPin node) specs ids)
    (distinct : PinSpec.Distinct specs) (listed : spec ∈ specs) :
    ∃ id, graph.findPinAmong spec.name (some spec.direction) ids = .ok (some id) ∧
      graph.HasPin node spec id := by
  induction pins with
  | nil => cases listed
  | @cons first id _ _ hasPin _ ih =>
      obtain ⟨apart, restDistinct⟩ := List.pairwise_cons.mp distinct
      obtain ⟨face, found, owner, rfl⟩ := hasPin
      obtain ⟨pin, live, rfl, _⟩ := exists_pin?_of_face? found
      rw [findPinAmong, pin_eq_ok_iff.mpr live]
      rcases List.mem_cons.mp listed with rfl | later
      · exact ⟨id, if_pos ⟨rfl, decide_eq_true rfl⟩, _, found, owner, rfl⟩
      · obtain ⟨other, searched, otherHasPin⟩ := ih restDistinct later
        refine ⟨other, (if_neg ?_).trans searched, otherHasPin⟩
        rintro ⟨name, direction⟩
        exact apart spec later ⟨of_decide_eq_true direction, name.symm⟩

/-- The node is asked for a pin by its name and gives the one that was laid for it. -/
theorem Carries.findPin (carries : graph.Carries node specs) (distinct : PinSpec.Distinct specs)
    (listed : spec ∈ specs) :
    ∃ id, graph.findPin node spec.name (some spec.direction) = .ok id ∧
      graph.HasPin node spec id := by
  obtain ⟨data, found, pins⟩ := carries
  obtain ⟨id, searched, hasPin⟩ := findPinAmong_of_distinct pins distinct listed
  refine ⟨id, bind_eq_ok_iff.mpr ⟨some id, ?_, rfl⟩, hasPin⟩
  rw [findPin?_of_node? found, searched]

theorem findPinAmong_of_live {name : String} {direction : PinDirection}
    (live : ∀ id ∈ ids, ∃ face, graph.face? id = some face) :
    ∃ answer, graph.findPinAmong name (some direction) ids = .ok answer := by
  induction ids with
  | nil => exact ⟨none, rfl⟩
  | cons id rest ih =>
      obtain ⟨face, found⟩ := live id (by simp)
      obtain ⟨pin, pinLive, _⟩ := exists_pin?_of_face? found
      rw [findPinAmong, pin_eq_ok_iff.mpr pinLive]
      by_cases matching : pin.name = name ∧ (some direction).all (· = pin.direction)
      · exact ⟨some id, if_pos matching⟩
      · obtain ⟨answer, searched⟩ :=
          ih fun other member => live other (List.mem_cons_of_mem _ member)
        exact ⟨answer, (if_neg matching).trans searched⟩

/-- In a regular graph there is no other pin to find. -/
theorem findPin_of_hasPin {id : PinId} (regular : graph.Regular)
    (hasPin : graph.HasPin node spec id) :
    graph.findPin node spec.name (some spec.direction) = .ok id := by
  obtain ⟨face, found, rfl, rfl⟩ := hasPin
  obtain ⟨data, dataFound, member⟩ := regular.owned found
  obtain ⟨answer, searched⟩ : ∃ answer,
      graph.findPinAmong face.name (some face.direction) data.pins = .ok answer :=
    findPinAmong_of_live fun other listed => (regular.listed dataFound listed).imp fun _ => And.left
  have outcome := findPinAmong_eq_ok searched
  cases answer with
  | none => exact (outcome id member face found ⟨rfl, rfl⟩).elim
  | some other =>
      obtain ⟨listed, otherFace, otherFound, name, direction⟩ := outcome
      obtain ⟨_, same, owner⟩ := regular.listed dataFound listed
      cases otherFound.symm.trans same
      obtain rfl := regular.namesUnique otherFound found owner name direction
      refine bind_eq_ok_iff.mpr ⟨some other, ?_, rfl⟩
      rw [findPin?_of_node? dataFound]
      exact searched

end Carries

end Graph

namespace Edit

open RigLowering.Graph

variable {graph after : Graph} {node : NodeId} {laid specs : List PinSpec} {spec : PinSpec}

theorem addPin_eq_ok {data : Node} {direction : PinDirection} {pinType : PinType} {name : String}
    (found : graph.node? node = some data)
    (free : graph.findPinAmong name (some direction) data.pins = .ok none) :
    addPin node direction pinType name graph =
      (.ok ⟨graph.pins.size⟩, graph.withPin node direction pinType name) := by
  let grown := { graph with
    pins := graph.pins.push
      (some ⟨⟨graph.pins.size⟩, node, name, direction, pinType, none, none, []⟩) }
  have grownFound : grown.node? node = some data := found
  unfold addPin
  rw [bind_apply, query_apply, findPin?_of_node? found, free]
  change (modifyNode node (·.listPin ⟨graph.pins.size⟩) >>= fun _ =>
    pure ⟨graph.pins.size⟩ : Edit PinId) grown = _
  rw [bind_apply, modifyNode_apply, grownFound]
  rfl

theorem succeeds_layPin_iff (carries : graph.Carries node specs) :
    Succeeds (layPin node spec) graph ↔
      ∀ other ∈ specs, ¬ (spec.direction = other.direction ∧ spec.name = other.name) := by
  obtain ⟨data, found, pins⟩ := carries
  constructor
  · rintro ⟨id, after, laid⟩ other listed ⟨direction, name⟩
    obtain ⟨_, added, _⟩ := layPin_effect laid
    obtain ⟨otherId, member, face, faceFound, _, rfl⟩ := exists_pin_of_mem pins listed
    rcases addPin_cases node spec.direction spec.pinType spec.name graph with
      ⟨_, failed⟩ | ⟨_, sameFound, free, _⟩
    · cases failed.symm.trans added
    · cases found.symm.trans sameFound
      exact free otherId member face faceFound ⟨name.symm, direction.symm⟩
  · intro apart
    have free : graph.findPinAmong spec.name (some spec.direction) data.pins = .ok none := by
      refine findPinAmong_eq_none fun id member => ?_
      obtain ⟨other, listed, face, faceFound, _, rfl⟩ := exists_spec_of_mem pins member
      exact ⟨face, faceFound, fun clash => apart _ listed ⟨clash.2.symm, clash.1.symm⟩⟩
    have faceFound : (graph.withPin node spec.direction spec.pinType spec.name).face?
        ⟨graph.pins.size⟩ =
          some ⟨⟨graph.pins.size⟩, node, spec.name, spec.direction, spec.pinType⟩ := by
      rw [face?_withPin, if_pos rfl]
    exact succeeds_bind_iff.mpr ⟨_, _, addPin_eq_ok found free, succeeds_bind_iff.mpr
      ⟨(), _, yields_modifyPin_of_live faceFound _, succeeds_pure _⟩⟩

theorem layPin_carries {id : PinId} (carries : graph.Carries node specs)
    (yielded : Yields (layPin node spec) graph id after) :
    after.Carries node (specs ++ [spec]) := by
  obtain ⟨data, found, pins⟩ := carries
  have hasPin := layPin_hasPin yielded
  obtain ⟨rfl, _, frame, _⟩ := layPin_effect yielded
  have extension := (graph.withPin_extends node spec.direction spec.pinType spec.name).trans
    frame.extended
  refine ⟨data.listPin ⟨graph.pins.size⟩, ?_, ?_⟩
  · rw [frame.node, node?_withPin, if_pos rfl, found]
    rfl
  · exact List.rel_append (pins.imp fun _ _ hasPin => hasPin.mono extension)
      (.cons hasPin .nil)

theorem layPins_carries (carries : graph.Carries node laid)
    (yielded : Yields (layPins node specs) graph () after) :
    after.Carries node (laid ++ specs) := by
  unfold layPins at yielded
  induction specs generalizing graph laid with
  | nil =>
      obtain ⟨_, rfl⟩ := yields_pure_iff.mp yielded
      rwa [List.append_nil]
  | cons spec rest ih =>
      obtain ⟨_, middle, first, others⟩ := yields_bind_iff.mp yielded
      obtain ⟨id, firstLaid⟩ := yields_discard_iff.mp first
      rw [List.append_cons]
      exact ih (layPin_carries carries firstLaid) others

/-- All pins that are asked for are laid just where no two of the node's would be the same. -/
theorem succeeds_layPins_iff (carries : graph.Carries node laid)
    (distinct : PinSpec.Distinct laid) :
    Succeeds (layPins node specs) graph ↔ PinSpec.Distinct (laid ++ specs) := by
  unfold layPins
  induction specs generalizing graph laid with
  | nil =>
      rw [List.append_nil]
      exact ⟨fun _ => distinct, fun _ => succeeds_pure ()⟩
  | cons spec rest ih =>
      have concat : PinSpec.Distinct (laid ++ [spec]) ↔
          ∀ other ∈ laid, ¬ (spec.direction = other.direction ∧ spec.name = other.name) := by
        rw [PinSpec.Distinct, List.pairwise_append]
        refine ⟨fun whole other listed => whole.2.2 other listed spec (by simp), fun apart =>
          ⟨distinct, List.pairwise_singleton _ spec, fun other listed last member => ?_⟩⟩
        rw [List.mem_singleton.mp member]
        exact apart other listed
      rw [List.append_cons]
      constructor
      · intro succeeds
        obtain ⟨_, middle, first, others⟩ := succeeds_bind_iff.mp succeeds
        obtain ⟨id, firstLaid⟩ := yields_discard_iff.mp first
        have apart := (succeeds_layPin_iff carries).mp ⟨id, middle, firstLaid⟩
        exact (ih (layPin_carries carries firstLaid) (concat.mpr apart)).mp others
      · intro whole
        have first : PinSpec.Distinct (laid ++ [spec]) := (List.pairwise_append.mp whole).1
        obtain ⟨id, middle, firstLaid⟩ := (succeeds_layPin_iff carries).mpr (concat.mp first)
        exact succeeds_bind_iff.mpr ⟨(), middle, yields_discard_iff.mpr ⟨id, firstLaid⟩,
          (ih (layPin_carries carries firstLaid) first).mpr whole⟩

end Edit

namespace Graph

/-- The node is as it was, and its pins have at most other links and literals. -/
structure Unharmed (node : NodeId) (before after : Graph) : Prop where
  entry : after.node? node = before.node? node
  face : ∀ {id face}, before.face? id = some face → face.owner = node →
    after.face? id = some face

/-- The graph is regular, and the node has what it had in `base`. -/
structure Heeds (node : NodeId) (base graph : Graph) : Prop extends Regular graph,
  Unharmed node base graph

section Unharmed

variable {base before after graph : Graph} {node other : NodeId}

theorem Unharmed.refl (node : NodeId) (graph : Graph) : Unharmed node graph graph where
  entry := rfl
  face := fun found _ => found

theorem Unharmed.trans (first : Unharmed node base before) (second : Unharmed node before after) :
    Unharmed node base after where
  entry := second.entry.trans first.entry
  face := fun found owner => second.face (first.face found owner) owner

theorem Unharmed.evaluates_iff {settings : EvaluatorSettings}
    (unharmed : Unharmed node before after) :
    after.Evaluates node settings ↔ before.Evaluates node settings := by
  rw [Evaluates, unharmed.entry]
  rfl

theorem Unharmed.carries {specs : List PinSpec} (unharmed : Unharmed node before after)
    (carries : before.Carries node specs) : after.Carries node specs := by
  obtain ⟨data, found, pins⟩ := carries
  refine ⟨data, unharmed.entry.trans found, pins.imp ?_⟩
  rintro spec id ⟨face, faceFound, owner, same⟩
  exact ⟨face, unharmed.face faceFound owner, owner, same⟩

theorem Heeds.of_frame (heeds : Heeds node base before) (frame : before.SameFrame after)
    (regular : after.Regular) : Heeds node base after where
  toRegular := regular
  entry := (frame.node node).trans heeds.entry
  face := fun found owner => (frame.face _).trans (heeds.face found owner)

theorem Heeds.pushNode (heeds : Heeds node base graph) (different : node.index ≠ graph.nodes.size)
    (kind : NodeKind) : Heeds node base (graph.pushNode kind) where
  toRegular := heeds.toRegular.pushNode kind
  entry := by rw [node?_pushNode, if_neg different, heeds.entry]
  face := fun found owner => heeds.face found owner

theorem Heeds.withPin (heeds : Heeds node base graph) {data : Node} {direction : PinDirection}
    {pinType : PinType} {name : String} (different : other ≠ node)
    (found : graph.node? other = some data)
    (free : ∀ pin ∈ data.pins, ∀ face, graph.face? pin = some face →
      ¬ (face.name = name ∧ face.direction = direction)) :
    Heeds node base (graph.withPin other direction pinType name) where
  toRegular := heeds.toRegular.withPin found free
  entry := by rw [node?_withPin, if_neg different, heeds.entry]
  face := by
    intro id face faceFound owner
    have here := heeds.face faceFound owner
    rw [face?_withPin, if_neg (fun same => Nat.lt_irrefl _ (same ▸ lt_size_of_face? here))]
    exact here

theorem Heeds.withSettings (heeds : Heeds node base graph) (different : other ≠ node)
    (change : EvaluatorSettings → EvaluatorSettings) :
    Heeds node base (graph.changeNode other (·.mapSettings change)) where
  toRegular := heeds.toRegular.withSettings other change
  entry := by rw [node?_changeNode, if_neg different, heeds.entry]
  face := fun found owner => heeds.face found owner

theorem Heeds.removed {id : PinId} (heeds : Heeds node base before)
    (removed : before.Removed after id) (foreign : ¬ before.Owns node id) :
    Heeds node base after where
  toRegular := heeds.toRegular.removed removed
  entry := (removed.node?_eq heeds.toSound foreign).trans heeds.entry
  face := by
    intro other face found owner
    have here := heeds.face found owner
    refine removed.face?_eq_some_iff.mpr ⟨?_, here⟩
    rintro rfl
    exact foreign ⟨face, here, owner⟩

end Unharmed

end Graph

namespace Edit

open RigLowering.Graph

variable {base graph : Graph} {node other : NodeId}

theorem link_heeds (a b : PinId) : Keeps (Heeds node base) (link a b) :=
  fun graph heeds => heeds.of_frame (link_frame a b graph)
    (link_keeps_regular a b graph heeds.toRegular)

theorem unlink_heeds (a b : PinId) : Keeps (Heeds node base) (unlink a b) :=
  fun graph heeds => heeds.of_frame (unlink_frame a b graph)
    (unlink_keeps_regular a b graph heeds.toRegular)

theorem unlinkPin_heeds (id : PinId) : Keeps (Heeds node base) (unlinkPin id) :=
  fun graph heeds => heeds.of_frame (unlinkPin_frame heeds.toSound id)
    (unlinkPin_keeps_regular id graph heeds.toRegular)

theorem changeLiterals_heeds (id : PinId) (value object : Pin → Option String) :
    Keeps (Heeds node base) (modifyPin id (·.setLiterals value object)) := by
  intro graph heeds
  rw [modifyPin_apply]
  cases graph.pin? id with
  | none => exact heeds
  | some pin =>
      exact heeds.of_frame (graph.changePin_sameFrame id fun _ => rfl)
        (kept_regular.withLiterals id value object heeds.toRegular)

theorem addPin_heeds (different : other ≠ node) (direction : PinDirection) (pinType : PinType)
    (name : String) : Keeps (Heeds node base) (addPin other direction pinType name) := by
  intro graph heeds
  rcases addPin_cases other direction pinType name graph with ⟨_, failed⟩ | ⟨_, found, free, added⟩
  · rw [failed]
    exact heeds
  · rw [added]
    exact heeds.withPin different found free

theorem layPins_heeds (different : other ≠ node) (specs : List PinSpec) :
    Keeps (Heeds node base) (layPins other specs) := by
  refine Keeps.forM (fun spec => Keeps.discard ?_) specs
  rw [layPin_eq]
  exact (addPin_heeds different _ _ _).bind fun _ => (changeLiterals_heeds _ _ _).bind
    fun _ => keeps_pure _

theorem removePin_heeds {id : PinId} (heeds : Heeds node base graph)
    (foreign : ¬ graph.Owns node id) : Heeds node base (removePin id graph).2 := by
  rcases removePin_cases heeds.toSound id with ⟨_, _, failed⟩ | ⟨after, done, removed⟩
  · rw [failed]
    exact heeds
  · rw [done]
    exact heeds.removed removed foreign

end Edit

end RigLowering
