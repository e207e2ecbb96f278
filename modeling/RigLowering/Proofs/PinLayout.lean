import RigLowering.Proofs.AuthoredPass
import RigLowering.Proofs.Sessions

namespace RigLowering

namespace Graph

variable {registry : RigRegistry} {graph : Graph} {node : NodeId} {specs : List PinSpec}
  {ids : List PinId}

private theorem mapM_pin_of_hasPin (pins : List.Forall₂ (graph.HasPin node) specs ids) :
    ∃ listed, ids.mapM graph.pin = .ok listed ∧ listed.map (·.face.spec) = specs := by
  induction pins with
  | nil => exact ⟨[], rfl, rfl⟩
  | cons hasPin _ ih =>
      obtain ⟨face, found, _, rfl⟩ := hasPin
      obtain ⟨pin, live, rfl, _⟩ := exists_pin?_of_face? found
      obtain ⟨listed, read, same⟩ := ih
      refine ⟨pin :: listed, ?_, by rw [List.map_cons, same]⟩
      rw [List.mapM_cons, pin_eq_ok_iff.mpr live, read]
      rfl

theorem Carries.pinsOf (carries : graph.Carries node specs) :
    ∃ pins, graph.pinsOf node = .ok pins ∧ pins.map (·.face.spec) = specs := by
  obtain ⟨data, found, hasPins⟩ := carries
  obtain ⟨pins, read, same⟩ := mapM_pin_of_hasPin hasPins
  exact ⟨pins, bind_eq_ok_iff.mpr ⟨data, node_eq_ok_iff.mpr found, read⟩, same⟩

/-- Every evaluator has the pins that its settings ask for, in their order. -/
structure LaidOut (registry : RigRegistry) (graph : Graph) : Prop extends Regular graph where
  layout : ∀ {node settings}, graph.Evaluates node settings →
    graph.Carries node (registry.evaluatorPins settings)

theorem LaidOut.empty (registry : RigRegistry) (name : String) (parentClass : Option String) :
    (Graph.empty name parentClass).LaidOut registry where
  toRegular := empty_regular name parentClass
  layout := fun ⟨_, found, _⟩ => by cases found

theorem LaidOut.leaves (laidOut : graph.LaidOut registry) (built : registry.Built)
    {command : AuthoringCommand} (permitted : command.Permitted registry graph) :
    (command.leaves registry graph).LaidOut registry where
  toRegular := AuthoringCommand.leaves_regular laidOut.toRegular command
  layout := by
    intro node settings evaluates
    by_cases rebuilt : command.rebuilds graph = some node
    · exact AuthoringCommand.leaves_carries built laidOut.toRegular rebuilt evaluates
    · have heeds := AuthoringCommand.leaves_heeds laidOut.toRegular permitted rebuilt evaluates
      exact heeds.carries (laidOut.layout (heeds.evaluates_iff.mp evaluates))

theorem Authored.laidOut (authored : graph.Authored registry) (built : registry.Built) :
    graph.LaidOut registry := by
  induction authored with
  | start name parentClass => exact .empty registry name parentClass
  | step _ command permitted ih => exact ih.leaves built permitted

end Graph

namespace AuthoringCommand

open RigLowering.Graph

/-- The command makes an evaluator, or changes the settings or the pins of one that is there. -/
def Addresses (graph : Graph) : AuthoringCommand → Prop
  | spawnEvaluator _ => True
  | bindRigType node _ => ∃ settings, graph.Evaluates node settings
  | enableField node _ _ _ => ∃ settings, graph.Evaluates node settings
  | rebuild node => ∃ settings, graph.Evaluates node settings
  | _ => False

variable {registry : RigRegistry} {graph : Graph} {command : AuthoringCommand}

theorem succeeds_enableField {node : NodeId} {settings : EvaluatorSettings}
    (built : registry.Built) (regular : graph.Regular) (evaluates : graph.Evaluates node settings)
    (field : String) (direction : PinDirection) (enabled : Bool) :
    Succeeds (Edit.enableField registry node field direction enabled) graph := by
  refine succeeds_bind_iff.mpr ⟨settings, graph,
    Edit.yields_query_iff.mpr ⟨rfl, Edit.settings_eq_ok_iff.mpr evaluates⟩, ?_⟩
  simp only
  split
  · exact succeeds_pure 0
  · obtain ⟨lost, after, resettled, _⟩ := Edit.resettle_carries built regular evaluates
      (·.setDisabled direction (if enabled then (settings.disabled direction).erase field
        else (settings.disabled direction).add field))
    exact ⟨lost, after, resettled⟩

/-- Since the pins that settings ask for never clash, and no restored link leads to a pin that is
gone, there is nothing that such a call could fail for. -/
theorem Addresses.succeeds (addresses : command.Addresses graph) (built : registry.Built)
    (regular : graph.Regular) : Succeeds (command.edit registry) graph := by
  have discarded {α : Type} {edit : Edit α} (succeeds : Succeeds edit graph) :
      Succeeds (discard edit : Edit Unit) graph := by
    obtain ⟨value, after, yielded⟩ := succeeds
    exact ⟨(), after, yields_discard_iff.mpr ⟨value, yielded⟩⟩
  cases command with
  | spawnEvaluator rigType =>
      obtain ⟨after, spawned, _⟩ := Edit.spawnEvaluator_carries built regular rigType
      exact discarded ⟨_, after, spawned⟩
  | bindRigType node rigType =>
      obtain ⟨settings, evaluates⟩ := addresses
      obtain ⟨lost, after, bound, _⟩ := Edit.resettle_carries built regular evaluates
        (·.bindTo rigType)
      exact discarded ⟨lost, after, bound⟩
  | enableField node field direction enabled =>
      obtain ⟨settings, evaluates⟩ := addresses
      exact discarded (succeeds_enableField built regular evaluates field direction enabled)
  | rebuild node =>
      obtain ⟨settings, evaluates⟩ := addresses
      obtain ⟨lost, after, rebuilt, _⟩ := Edit.rebuild_carries built regular evaluates
      exact discarded ⟨lost, after, rebuilt⟩
  | _ => exact addresses.elim

end AuthoringCommand

namespace Graph

variable {registry : RigRegistry} {graph : Graph}

end Graph

namespace CrossedLegs

open RigLowering.Graph

end CrossedLegs

namespace RigRegistry

variable {registry : RigRegistry} {settings : EvaluatorSettings} {direction : PinDirection}
  {name : String}

theorem not_disabled_of_mem_fieldPins {rigType : String} {disabled : NameSet} {spec : PinSpec}
    (member : spec ∈ registry.fieldPins rigType direction disabled) :
    ¬ disabled.contains spec.name := by
  obtain ⟨field, enabled, rfl⟩ := List.mem_map.mp member
  have matching := (List.mem_filter.mp enabled).2
  simp only [Bool.and_eq_true, Bool.not_eq_true'] at matching
  exact Bool.not_eq_true _ ▸ matching.2

/-- Of the pins that settings ask for only the sub-rig output can have a disabled name. -/
theorem exists_disabled_spec_iff (disabled : (settings.disabled direction).contains name) :
    (∃ spec ∈ registry.evaluatorPins settings, spec.direction = direction ∧ spec.name = name) ↔
      direction = .output ∧ name = PinName.rig ∧
        ∃ rigType, registry.rigType? settings = some rigType := by
  constructor
  · rintro ⟨spec, member, rfl, rfl⟩
    unfold evaluatorPins at member
    split at member
    · cases member
    · next rigType bound =>
        rcases List.mem_append.mp member with inputOrRig | output
        · rcases List.mem_append.mp inputOrRig with input | rig
          · rw [direction_eq_of_mem_fieldPins input] at disabled
            exact (not_disabled_of_mem_fieldPins input disabled).elim
          · rw [List.mem_singleton.mp rig]
            exact ⟨rfl, rfl, rigType, bound⟩
        · rw [direction_eq_of_mem_fieldPins output] at disabled
          exact (not_disabled_of_mem_fieldPins output disabled).elim
  · rintro ⟨rfl, rfl, rigType, bound⟩
    exact ⟨_, rig_mem_evaluatorPins bound, rfl, rfl⟩

end RigRegistry

namespace Graph

variable {registry : RigRegistry} {graph : Graph} {node : NodeId} {specs : List PinSpec}

theorem Carries.exists_port_iff (carries : graph.Carries node specs) (regular : graph.Regular)
    {direction : PinDirection} {name : String} :
    (∃ id, graph.Port node direction name id) ↔
      ∃ spec ∈ specs, spec.direction = direction ∧ spec.name = name := by
  constructor
  · rintro ⟨id, face, found, owner, rfl, rfl⟩
    obtain ⟨data, dataFound, pins⟩ := carries
    have member := (regular.mem_pins_iff dataFound).mpr ⟨face, found, owner⟩
    obtain ⟨spec, listed, sameFace, sameFound, _, rfl⟩ := exists_spec_of_mem pins member
    cases found.symm.trans sameFound
    exact ⟨face.spec, listed, rfl, rfl⟩
  · rintro ⟨spec, listed, rfl, rfl⟩
    obtain ⟨id, hasPin⟩ := carries.exists_pin listed
    exact ⟨id, hasPin.port⟩

/-- However a graph has been authored, a name that is disabled for an evaluator is not that of one
of its pins, with one exception: a call may disable the name of the sub-rig output, and the pin
stays for as long as there is a class. -/
theorem Authored.exists_disabled_pin_iff (built : registry.Built)
    (authored : graph.Authored registry) {settings : EvaluatorSettings}
    (evaluates : graph.Evaluates node settings) {direction : PinDirection} {name : String}
    (disabled : (settings.disabled direction).contains name) :
    (∃ id, graph.Port node direction name id) ↔
      direction = .output ∧ name = PinName.rig ∧
        ∃ rigType, registry.rigType? settings = some rigType := by
  have laidOut := authored.laidOut built
  rw [(laidOut.layout evaluates).exists_port_iff laidOut.toRegular]
  exact RigRegistry.exists_disabled_spec_iff disabled

end Graph

/-! A leg whose foot and whose sub-rig output have been hidden. -/

namespace HiddenRig

open RigLowering.Graph

def hidden : Graph :=
  [.spawnEvaluator (some "Leg"), .enableField ⟨0⟩ "foot" .output false,
    .enableField ⟨0⟩ "Rig" .output false].foldl
      (fun graph (command : AuthoringCommand) => command.leaves CrossedLegs.registry graph)
      (.empty "HiddenRig" none)

theorem hiddenAuthored : hidden.Authored CrossedLegs.registry :=
  (((Authored.start "HiddenRig" none).step (.spawnEvaluator (some "Leg")) trivial).step
    (.enableField ⟨0⟩ "foot" .output false) trivial).step
      (.enableField ⟨0⟩ "Rig" .output false) trivial

theorem hiddenEvaluates : hidden.Evaluates ⟨0⟩ { EvaluatorSettings.unset with
    rigType := some "Leg", disabledOutputs := .ofNames ["foot", "Rig"] } := by
  rw [evaluates_iff]
  decide +kernel

/-- The foot is gone, and the sub-rig output is still there. -/
theorem hides_foot_only : CrossedLegs.registry.Built ∧ hidden.Authored CrossedLegs.registry ∧
    (¬ ∃ id, hidden.Port ⟨0⟩ .output "foot" id) ∧ ∃ id, hidden.Port ⟨0⟩ .output "Rig" id := by
  refine ⟨CrossedLegs.registryBuilt, hiddenAuthored, ?_, ?_⟩
  · rw [Authored.exists_disabled_pin_iff CrossedLegs.registryBuilt hiddenAuthored hiddenEvaluates
      (by decide)]
    rintro ⟨_, named, _⟩
    revert named
    decide
  · exact (Authored.exists_disabled_pin_iff CrossedLegs.registryBuilt hiddenAuthored
      hiddenEvaluates (by decide)).mpr ⟨rfl, rfl, "Leg", rfl⟩

/-- A disabled name may be that of a pin. -/
theorem not_always_apart : ¬ ∀ settings direction name id, hidden.Evaluates ⟨0⟩ settings →
    (settings.disabled direction).contains name → ¬ hidden.Port ⟨0⟩ direction name id := by
  intro apart
  have laidOut := hiddenAuthored.laidOut CrossedLegs.registryBuilt
  obtain ⟨id, hasPin⟩ := (laidOut.layout hiddenEvaluates).exists_pin
    (RigRegistry.rig_mem_evaluatorPins rfl)
  exact apart _ .output "Rig" id hiddenEvaluates (by decide) hasPin.port

end HiddenRig

end RigLowering
