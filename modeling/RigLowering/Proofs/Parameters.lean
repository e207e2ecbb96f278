import RigLowering.Pass.Expansion
import RigLowering.Proofs.Spawning

namespace RigLowering

theorem yields_mapM {σ ν α β : Type} {view : σ → ν} {step : α → ExceptT Error (StateM σ) β}
    {result : ν → α → β}
    (reads : ∀ value {before answer after}, Yields (step value) before answer after →
      view after = view before ∧ answer = result (view before) value)
    {values : List α} {before after : σ} {answers : List β}
    (yielded : Yields (values.mapM step) before answers after) :
    view after = view before ∧ answers = values.map (result (view before)) := by
  induction values generalizing before answers with
  | nil =>
      obtain ⟨rfl, rfl⟩ := yields_pure_iff.mp yielded
      exact ⟨rfl, rfl⟩
  | cons value rest ih =>
      rw [List.mapM_cons] at yielded
      obtain ⟨answer, middle, first, afterFirst⟩ := yields_bind_iff.mp yielded
      obtain ⟨others, last, second, returned⟩ := yields_bind_iff.mp afterFirst
      obtain ⟨rfl, rfl⟩ := yields_pure_iff.mp returned
      obtain ⟨sameMiddle, rfl⟩ := reads value first
      obtain ⟨sameLast, rfl⟩ := ih second
      rw [sameLast, sameMiddle]
      exact ⟨rfl, rfl⟩

namespace Graph

private theorem toward_of_mapM {graph : Graph} {direction : PinDirection} {ids : List PinId}
    {listed : List (PinId × Pin)}
    (read : (ids.mapM fun id => do return (id, ← graph.pin id) : Except Error _) = .ok listed) :
    (listed.filter (·.2.direction = direction)).map (·.1) =
      ids.filter fun id => (graph.face? id).any (·.direction = direction) := by
  induction ids generalizing listed with
  | nil =>
      cases read
      rfl
  | cons id rest ih =>
      rw [List.mapM_cons] at read
      obtain ⟨_, first, afterFirst⟩ := bind_eq_ok_iff.mp read
      obtain ⟨pin, live, paired⟩ := bind_eq_ok_iff.mp first
      obtain ⟨tail, others, joined⟩ := bind_eq_ok_iff.mp afterFirst
      cases paired
      cases joined
      rw [List.filter_cons, List.filter_cons, face?_of_pin? (pin_eq_ok_iff.mp live)]
      by_cases toward : pin.direction = direction
      · simp [toward, Pin.face, ih others]
      · simp [toward, Pin.face, ih others]

theorem pinsToward_eq_ok {graph : Graph} {node : NodeId} {direction : PinDirection}
    {ids : List PinId} (read : graph.pinsToward node direction = .ok ids) :
    ∃ data, graph.node? node = some data ∧
      ids = data.pins.filter fun id => (graph.face? id).any (·.direction = direction) := by
  obtain ⟨data, found, afterFound⟩ := bind_eq_ok_iff.mp read
  obtain ⟨listed, listing, returned⟩ := bind_eq_ok_iff.mp afterFound
  cases returned
  exact ⟨data, node_eq_ok_iff.mp found, toward_of_mapM listing⟩

end Graph

namespace Target

open RigLowering.Graph

variable {env : Environment} {target : Target} {direction : PinDirection}

/-- A pin counts when it is linked, not disabled, and not the sub-rig output. -/
theorem isParameter_iff {pin : Pin} :
    target.isParameter direction pin ↔
      pin.isLinked ∧ ¬ (target.settings.disabled direction).contains pin.name ∧
        ¬ (direction = .output ∧ pin.name = PinName.rig) := by
  simp only [isParameter, Bool.and_eq_true, Bool.not_eq_true', Bool.and_eq_false_iff,
    decide_eq_false_iff_not, Bool.not_eq_true, Classical.not_and_iff_not_or_not]
  constructor
  · rintro ⟨⟨notRig, enabled⟩, linked⟩
    exact ⟨linked, enabled, notRig⟩
  · rintro ⟨linked, enabled, notRig⟩
    exact ⟨⟨notRig, enabled⟩, linked⟩

/-- The pin with the field behind it, if it counts and has one. -/
def parameterAt (env : Environment) (target : Target) (direction : PinDirection) (graph : Graph)
    (id : PinId) : Option (PinId × Field) :=
  match graph.pin? id with
  | some pin =>
      if target.isParameter direction pin then
        (env.registry.findField? target.rigType pin.name direction).map (id, ·)
      else none
  | none => none

/-- The parameters among the pins of a node, in the order of the pins. -/
def parametersAmong (env : Environment) (target : Target) (direction : PinDirection)
    (graph : Graph) (ids : List PinId) : List (PinId × Field) :=
  (ids.filter fun id => (graph.face? id).any (·.direction = direction)).filterMap
    (target.parameterAt env direction graph)

theorem yields_parameter? {id : PinId} {before after : PassState}
    {answer : Option (PinId × Field)}
    (yielded : Yields (target.parameter? env direction id) before answer after) :
    after.graph = before.graph ∧ answer = target.parameterAt env direction before.graph id := by
  obtain ⟨pin, middle, read, decided⟩ := yields_bind_iff.mp yielded
  obtain ⟨same, live⟩ := Edit.yields_pin_iff.mp (Pass.yields_edit read)
  unfold parameterAt
  rw [live]
  rw [← same]
  by_cases counts : target.isParameter direction pin
  · rw [if_pos counts] at decided
    simp only
    rw [if_pos counts]
    cases found : env.registry.findField? target.rigType pin.name direction with
    | some field =>
        rw [found] at decided
        obtain ⟨rfl, rfl⟩ := yields_pure_iff.mp decided
        exact ⟨rfl, rfl⟩
    | none =>
        rw [found] at decided
        obtain ⟨_, last, warned, returned⟩ := yields_bind_iff.mp decided
        obtain ⟨rfl, rfl⟩ := yields_pure_iff.mp returned
        obtain rfl := yields_modify_iff.mp warned
        exact ⟨rfl, rfl⟩
  · rw [if_neg counts] at decided
    obtain ⟨rfl, rfl⟩ := yields_pure_iff.mp decided
    exact ⟨rfl, (if_neg counts).symm⟩

theorem yields_parameters {before after : PassState} {parameters : List (PinId × Field)}
    (yielded : Yields (target.parameters env direction) before parameters after) :
    after.graph = before.graph ∧ ∃ data, before.graph.node? target.node = some data ∧
      parameters = target.parametersAmong env direction before.graph data.pins := by
  obtain ⟨ids, middle, queried, mapping⟩ := yields_bind_iff.mp yielded
  obtain ⟨sameMiddle, read⟩ := Pass.yields_query queried
  obtain ⟨data, found, rfl⟩ := pinsToward_eq_ok read
  obtain ⟨answers, last, mapped, returned⟩ := yields_bind_iff.mp mapping
  obtain ⟨rfl, rfl⟩ := yields_pure_iff.mp returned
  obtain ⟨sameLast, rfl⟩ := yields_mapM (fun _ => yields_parameter?) mapped
  rw [sameLast, sameMiddle, List.filterMap_map]
  exact ⟨rfl, data, found, rfl⟩

/-- The pin is linked and not disabled, and the rig type has a field for it. -/
def HasField (env : Environment) (target : Target) (pin : Pin) (field : Field) : Prop :=
  target.isParameter pin.direction pin ∧
    env.registry.findField? target.rigType pin.name pin.direction = some field

/-- The conditions on the pin one by one, then the field. -/
theorem hasField_iff {pin : Pin} {field : Field} :
    target.HasField env pin field ↔
      (pin.isLinked ∧ ¬ (target.settings.disabled pin.direction).contains pin.name ∧
        ¬ (pin.direction = .output ∧ pin.name = PinName.rig)) ∧
      env.registry.findField? target.rigType pin.name pin.direction = some field := by
  rw [HasField, isParameter_iff]

theorem HasField.direction_eq {pin : Pin} {field : Field}
    (hasField : target.HasField env pin field) : field.direction = pin.direction := by
  have matching := List.find?_some hasField.2
  simp only [Bool.and_eq_true, decide_eq_true_eq] at matching
  exact matching.1

theorem HasField.name_eq {pin : Pin} {field : Field} (hasField : target.HasField env pin field) :
    field.name = pin.name := by
  have matching := List.find?_some hasField.2
  simp only [Bool.and_eq_true, decide_eq_true_eq] at matching
  exact matching.2

theorem HasField.not_rig {pin : Pin} {field : Field} (hasField : target.HasField env pin field) :
    ¬ (pin.direction = .output ∧ pin.name = PinName.rig) := by
  obtain ⟨⟨_, _, notRig⟩, _⟩ := hasField_iff.mp hasField
  exact notRig

theorem parameterAt_eq_some_iff {graph : Graph} {id : PinId} {parameter : PinId × Field} {pin : Pin}
    (live : graph.pin? id = some pin) (toward : pin.direction = direction) :
    target.parameterAt env direction graph id = some parameter ↔
      parameter.1 = id ∧ target.HasField env pin parameter.2 := by
  unfold parameterAt HasField
  rw [live, toward]
  obtain ⟨external, field⟩ := parameter
  by_cases counts : target.isParameter direction pin
  · simp only [counts, if_true, Option.map_eq_some_iff, Prod.mk.injEq, true_and]
    grind
  · simp [counts]

theorem mem_parameters_iff {graph : Graph} (sound : graph.Sound) {data : Node}
    (found : graph.node? target.node = some data) {parameter : PinId × Field} :
    parameter ∈ target.parametersAmong env direction graph data.pins ↔
      ∃ pin, graph.pin? parameter.1 = some pin ∧ pin.owner = target.node ∧
        pin.direction = direction ∧ target.HasField env pin parameter.2 := by
  simp only [parametersAmong, List.mem_filterMap, List.mem_filter, Option.any_eq_true,
    decide_eq_true_eq]
  constructor
  · rintro ⟨id, ⟨member, face, faceFound, toward⟩, answered⟩
    obtain ⟨pin, live, rfl, _⟩ := exists_pin?_of_face? faceFound
    obtain ⟨same, hasField⟩ := (parameterAt_eq_some_iff live toward).mp answered
    obtain ⟨_, listedFound, owner⟩ := sound.listed found member
    rw [faceFound] at listedFound
    cases listedFound
    exact ⟨pin, same ▸ live, owner, toward, hasField⟩
  · rintro ⟨pin, live, owner, toward, hasField⟩
    have faceFound := face?_of_pin? live
    obtain ⟨listing, listingFound, member⟩ := sound.owned faceFound
    rw [show pin.face.owner = target.node from owner, found] at listingFound
    cases listingFound
    exact ⟨parameter.1, ⟨member, _, faceFound, toward⟩,
      (parameterAt_eq_some_iff live toward).mpr ⟨rfl, hasField⟩⟩

private theorem fst_filterMap_sublist {graph : Graph} (ids : List PinId) :
    ((ids.filterMap (target.parameterAt env direction graph)).map (·.1)).Sublist ids := by
  induction ids with
  | nil => exact .slnil
  | cons id rest ih =>
      rw [List.filterMap_cons]
      split
      · exact ih.cons _
      · next parameter answered =>
          have same : parameter.1 = id := by
            unfold parameterAt at answered
            split at answered
            · split at answered
              · obtain ⟨_, _, rfl⟩ := Option.map_eq_some_iff.mp answered
                rfl
              · cases answered
            · cases answered
          rw [List.map_cons, same]
          exact ih.cons_cons _

theorem nodup_parameters {graph : Graph} (regular : graph.Regular) {data : Node}
    (found : graph.node? target.node = some data) :
    ((target.parametersAmong env direction graph data.pins).map (·.1)).Nodup :=
  (fst_filterMap_sublist _).nodup ((regular.pinsNodup found).filter _)

end Target

end RigLowering
