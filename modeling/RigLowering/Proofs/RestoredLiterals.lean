import RigLowering.Proofs.RestoredPins

namespace RigLowering

namespace PinSpec

variable {spec : PinSpec} {old : List Pin} {pin : Pin} {value : Option String}

theorem foldl_carryOver_of_output (output : spec.direction ≠ .input) (old : List Pin)
    (value : Option String) : old.foldl spec.carryOver value = value := by
  induction old with
  | nil => rfl
  | cons pin rest ih => rwa [List.foldl_cons, carryOver, if_neg fun both => output both.1]

theorem foldl_carryOver_of_unmatched (unmatched : ∀ pin ∈ old, pin.face.spec ≠ spec)
    (value : Option String) : old.foldl spec.carryOver value = value := by
  induction old with
  | nil => rfl
  | cons pin rest ih =>
      obtain ⟨first, others⟩ := List.forall_mem_cons.mp unmatched
      rw [List.foldl_cons, carryOver, if_neg fun both => first both.2, ih others]

/-- Of pins that are all different at most one has a literal to restore. -/
theorem foldl_carryOver_of_mem
    (apart : old.Pairwise fun first second => first.face.spec ≠ second.face.spec)
    (member : pin ∈ old) (matching : pin.face.spec = spec) (input : spec.direction = .input)
    (value : Option String) : old.foldl spec.carryOver value = (pin.defaultValue <|> value) := by
  induction old with
  | nil => cases member
  | cons head rest ih =>
      obtain ⟨others, restApart⟩ := List.pairwise_cons.mp apart
      rw [List.foldl_cons]
      rcases List.mem_cons.mp member with rfl | later
      · rw [carryOver, if_pos ⟨input, matching⟩]
        exact foldl_carryOver_of_unmatched (fun other listed same =>
          others other listed (matching.trans same.symm)) _
      · rw [carryOver, if_neg fun both => others pin later (both.2.trans matching.symm)]
        exact ih restApart later

end PinSpec

namespace Graph

variable {before after graph : Graph} {node : NodeId} {specs : List PinSpec} {spec : PinSpec}
  {old new : List Pin} {lost : Nat} {id : PinId}

theorem Regular.pairwise_spec_pinsOf (regular : graph.Regular)
    (read : graph.pinsOf node = .ok old) :
    old.Pairwise fun first second => first.face.spec ≠ second.face.spec :=
  (regular.pairwise_ports read).imp fun apart same =>
    apart ⟨congrArg PinSpec.direction same, congrArg PinSpec.name same⟩

/-- An input that is made as the old one was has its value. -/
theorem Rebuilt.literals_of_mem (rebuilt : Rebuilt specs node lost before after)
    (regular : before.Regular) (read : before.pinsOf node = .ok old) {pin : Pin}
    (member : pin ∈ old) (input : pin.direction = .input)
    (hasPin : after.HasPin node pin.face.spec id) :
    after.literals id = ((pin.defaultValue <|> pin.pinType.defaultLiteral), none) := by
  have toward : pin.face.spec.direction = .input := input
  rw [rebuilt.relit read hasPin, PinSpec.literal, if_pos toward,
    PinSpec.foldl_carryOver_of_mem (regular.pairwise_spec_pinsOf read) member rfl toward]
  rfl

theorem Sound.hasPin_of_mem_pinsOf (sound : graph.Sound) (read : graph.pinsOf node = .ok old)
    {pin : Pin} (member : pin ∈ old) : graph.HasPin node pin.face.spec pin.id := by
  obtain ⟨live, owner⟩ := (sound.mem_pinsOf_iff read).mp member
  exact ⟨pin.face, face?_of_pin? live, owner, rfl⟩

/-- Rebuilding an evaluator restores the values of inputs whose type is still the same, and leaves
no pin of the evaluator with an object. -/
theorem WellFormed.rebuild_restores_values {registry : RigRegistry} {settings : EvaluatorSettings}
    (built : registry.Built) (wellFormed : graph.WellFormed)
    (evaluates : graph.Evaluates node settings) :
    ∃ lost old new after, (Edit.rebuild registry node).run graph = (.ok lost, after) ∧
      graph.pinsOf node = .ok old ∧ after.pinsOf node = .ok new ∧
      (∀ pin ∈ old, ∀ later ∈ new, pin.direction = .input → later.direction = .input →
        later.name = pin.name → later.pinType = pin.pinType →
          later.defaultValue = (pin.defaultValue <|> pin.pinType.defaultLiteral)) ∧
      ∀ later ∈ new, later.defaultObject = none := by
  have regular := wellFormed_iff_regular.mp wellFormed
  obtain ⟨data, found, _⟩ := id evaluates
  obtain ⟨lost, after, ran, rebuilt⟩ := Edit.rebuilt_of_rebuild built regular evaluates
  have oldRead := regular.pinsOf_eq found
  obtain ⟨new, newRead, _⟩ := (rebuilt.carries found).pinsOf
  refine ⟨lost, _, new, after, ran, oldRead, newRead, ?_, ?_⟩
  · intro pin member later laterMember input laterInput name pinType
    have hasPin := rebuilt.regular.hasPin_of_mem_pinsOf newRead laterMember
    have same : later.face.spec = pin.face.spec := by
      rw [PinFace.spec, PinFace.spec, PinSpec.mk.injEq]
      exact ⟨laterInput.trans input.symm, pinType, name⟩
    rw [same] at hasPin
    have literals := rebuilt.literals_of_mem regular oldRead member input hasPin
    rw [literals_of_pin? ((rebuilt.regular.mem_pinsOf_iff newRead).mp laterMember).1] at literals
    exact congrArg Prod.fst literals
  · intro later laterMember
    have literals := rebuilt.relit oldRead
      (rebuilt.regular.hasPin_of_mem_pinsOf newRead laterMember)
    rw [literals_of_pin? ((rebuilt.regular.mem_pinsOf_iff newRead).mp laterMember).1] at literals
    exact congrArg Prod.snd literals

end Graph

namespace StaleLeg

open RigLowering.Graph

/-- The height keeps its value, and the bone loses its object. -/
theorem keeps_height_value : registry.Built ∧ graph.WellFormed ∧ graph.Evaluates ⟨0⟩ settings ∧
    ∃ lost new after, (Edit.rebuild registry ⟨0⟩).run graph = (.ok lost, after) ∧
      after.pinsOf ⟨0⟩ = .ok new ∧
      (∀ later ∈ new, later.direction = .input → later.name = "height" →
        later.pinType = .float → later.defaultValue = some "1.5") ∧
      ∀ later ∈ new, later.defaultObject = none := by
  obtain ⟨lost, old, new, after, ran, oldRead, newRead, values, objects⟩ :=
    WellFormed.rebuild_restores_values registryBuilt wellFormed evaluates
  refine ⟨registryBuilt, wellFormed, evaluates, lost, new, after, ran, newRead, ?_, objects⟩
  cases oldRead
  exact fun later member input name pinType =>
    values _ List.mem_cons_self later member rfl input name pinType

theorem rebuilt_bone : ((Edit.rebuild registry ⟨0⟩).run graph).2.pin? ⟨13⟩ =
    some ⟨⟨13⟩, ⟨0⟩, "bone", .input, .object "Bone", none, none, []⟩ := by
  decide +kernel

/-- An object that a pin stands for may be lost. -/
theorem not_always_kept : ¬ ∀ (registry : RigRegistry) (graph : Graph) (node : NodeId)
    (settings : EvaluatorSettings) (lost : Nat) (after : Graph), registry.Built →
      graph.WellFormed → graph.Evaluates node settings →
        (Edit.rebuild registry node).run graph = (.ok lost, after) →
          ∀ id pin new later, graph.pin? id = some pin → pin.owner = node →
            after.pin? new = some later → later.owner = node → pin.direction = .input →
              later.direction = .input → later.name = pin.name → later.pinType = pin.pinType →
                pin.defaultObject.isSome → later.defaultObject = pin.defaultObject := by
  intro kept
  obtain ⟨lost, after, ran, _⟩ :=
    Edit.rebuilt_of_rebuild registryBuilt (wellFormed_iff_regular.mp wellFormed) evaluates
  have ran : (Edit.rebuild registry ⟨0⟩).run graph = (.ok lost, after) := ran
  have bone := rebuilt_bone
  rw [ran] at bone
  have same := kept registry graph ⟨0⟩ settings lost after registryBuilt wellFormed evaluates ran
    ⟨2⟩ _ ⟨13⟩ _ rfl rfl bone rfl rfl rfl rfl rfl rfl
  cases same

end StaleLeg

end RigLowering
