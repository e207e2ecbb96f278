import RigLowering.Proofs.ExpansionCensus

namespace RigLowering

namespace Environment

open RigLowering.Graph

/-- The writes of an expansion run in the order of the pins, and nothing comes after them. -/
theorem runs_of_expandNode {env : Environment} {node event : NodeId} {index : UInt32}
    {before after : PassState} (regular : before.graph.Regular)
    (yielded : Yields (env.expandNode node) before (.expanded index (some event)) after) :
    ∃ target data writers, env.target before.fullCompile before.graph node = .ok (.inr target) ∧
      before.graph.node? node = some data ∧
      List.Forall₂ (fun input writer => Spawned before.graph after.graph node
        (input.2.writeKind target.rigType) writer)
        (target.parametersAmong env .input before.graph data.pins) writers ∧
      after.graph.Runs event writers := by
  obtain ⟨target, data, layout, middle, found, rfl, live, eventSame, unfolds, retired⟩ :=
    unfolds_of_expandNode regular yielded
  obtain ⟨_, _, realizes⟩ := unfolds.realizes
  have retains := retired.retainsOrder (lt_size_of_node? live)
  obtain ⟨_, spawned⟩ := realizes.event event eventSame
  refine ⟨target, data, layout.writers, found, live, ?_, retains.runs (unfolds.runs event eventSame)
    spawned.added (Target.writers_new realizes.written)⟩
  exact List.forall₂_map_right_iff.mpr (realizes.written.imp fun _ _ written =>
    written.spawned.mono (Field.settings?_writeKind _ _) retains.extended)

/-- Writes that are given one after another where to go on from run in that order, and after them
runs what the first of them was put before.  So do the writes of an evaluator, which its event
starts and nothing follows. -/
theorem writes_run_in_order (env : Environment) {before : PassState}
    (wellFormed : before.graph.WellFormed) :
    (∀ (exec : PinId) (pin : Pin) (steps : List (FieldAccess × Field)) (next : Option PinId)
        (after : PassState), before.graph.pin? exec = some pin → pin.direction = .output →
      pin.pinType.isExec → steps ≠ [] →
      (∀ step ∈ steps, step.2.direction = .input ∧ step.2.check = .ok ()) →
      Pass.run (steps.foldlM (fun exec step => FieldAccess.expand { step.1 with exec } step.2)
        (some exec)) before = (.ok next, after) →
      ∃ writers last, next = some last ∧
        List.Forall₂ (fun step writer => Spawned before.graph after.graph step.1.source
          (step.2.writeKind step.1.owner) writer) steps writers ∧
        after.graph.Sequence exec writers last ∧ after.graph.links last = pin.links ∧
        ∀ far ∈ pin.links, far ∉ after.graph.links exec) ∧
    ∀ (node event : NodeId) (index : UInt32) (after : PassState),
      (env.expandNode node).run before = (.ok (.expanded index (some event)), after) →
      ∃ target data writers, env.target before.fullCompile before.graph node = .ok (.inr target) ∧
        before.graph.node? node = some data ∧
        List.Forall₂ (fun input writer => Spawned before.graph after.graph node
          (input.2.writeKind target.rigType) writer)
          (target.parametersAmong env .input before.graph data.pins) writers ∧
        after.graph.Runs event writers := by
  have regular := wellFormed_iff_regular.mp wellFormed
  refine ⟨?_, fun node event index after => runs_of_expandNode regular⟩
  intro exec pin steps next after live output isExec filled checked ran
  have found := face?_of_pin? live
  obtain ⟨extended, _, writers, last, rfl, sequence, inherits, spawned⟩ :=
    FieldAccess.sequence_of_foldlM regular ⟨_, found, output, isExec⟩
      (fun step member => ⟨(checked step member).1, Field.isValue_of_check (checked step member).2⟩)
      ran
  rw [← links_of_pin? live]
  refine ⟨writers, last, rfl, spawned, sequence, inherits, ?_⟩
  intro far member
  cases spawned with
  | nil => exact (filled rfl).elim
  | cons first _ =>
      cases sequence with
      | next enters only _ _ =>
          rw [only, List.mem_singleton]
          rintro rfl
          obtain ⟨_, face, _, farFound, _⟩ := regular.joinable member
          exact Nat.not_lt_of_le ((enters.added first.added).pinCount_le regular.toSound extended)
            (lt_size_of_face? farFound)

end Environment

/-! A host whose inputs are written between a start and what used to follow it. -/

namespace SplicedWrites

def graph : Graph where
  name := "SplicedWrites"
  parentClass := none
  nodes := #[
    ⟨⟨0⟩, .primitive "host", [⟨0⟩, ⟨4⟩], none⟩,
    ⟨⟨1⟩, .primitive "start", [⟨1⟩], none⟩,
    ⟨⟨2⟩, .primitive "body", [⟨2⟩], none⟩,
    ⟨⟨3⟩, .primitive "leg", [⟨3⟩], none⟩]
  pins := #[
    some ⟨⟨0⟩, ⟨0⟩, "height", .input, .float, none, none, []⟩,
    some ⟨⟨1⟩, ⟨1⟩, "then", .output, .exec, none, none, [⟨2⟩]⟩,
    some ⟨⟨2⟩, ⟨2⟩, "execute", .input, .exec, none, none, [⟨1⟩]⟩,
    some ⟨⟨3⟩, ⟨3⟩, "leg", .output, .object "Leg", none, none, []⟩,
    some ⟨⟨4⟩, ⟨0⟩, "toes", .input, .arrayOf .float, none, none, []⟩]
  hierarchy := .empty
  undo := none

def start : PassState := .start CrossedLegs.registry .standard graph

theorem startWellFormed : start.graph.WellFormed where
  audited := rfl
  pinsOnce := by decide
  linksOnce := by decide
  namesOnce := by decide

def steps : List (FieldAccess × Field) :=
  [(⟨"Leg", ⟨0⟩, ⟨0⟩, ⟨3⟩, false, none⟩, .ofType "height" .float .input),
    (⟨"Leg", ⟨0⟩, ⟨4⟩, ⟨3⟩, false, none⟩, .ofType "toes" (.arrayOf .float) .input)]

theorem steps_checked :
    ∀ step ∈ steps, step.2.direction = .input ∧ step.2.check = .ok () := by
  simp only [steps, List.forall_mem_cons]
  exact ⟨⟨rfl, rfl⟩, ⟨rfl, rfl⟩, by simp⟩

theorem written : ∃ after, Pass.run (steps.foldlM
    (fun exec step => FieldAccess.expand { step.1 with exec } step.2) (some ⟨1⟩)) start =
      (.ok (some ⟨12⟩), after) :=
  Pass.exists_run_eq_ok (by decide +kernel)

/-- The body comes after both writes, and the event of a leg runs the write of its height. -/
theorem body_follows_writes :
    (∃ after writers, Pass.run (steps.foldlM
        (fun exec step => FieldAccess.expand { step.1 with exec } step.2) (some ⟨1⟩)) start =
          (.ok (some ⟨12⟩), after) ∧ writers.length = 2 ∧
      after.graph.Sequence ⟨1⟩ writers ⟨12⟩ ∧ after.graph.links ⟨12⟩ = [⟨2⟩]) ∧
    ∃ after writers, (CrossedLegs.env.expandNode ⟨0⟩).run CrossedLegs.start =
        (.ok (.expanded 0 (some ⟨5⟩)), after) ∧ after.graph.Runs ⟨5⟩ writers := by
  constructor
  · obtain ⟨after, ran⟩ := written
    obtain ⟨writers, last, same, spawned, sequence, inherits, _⟩ :=
      (CrossedLegs.env.writes_run_in_order startWellFormed).1 ⟨1⟩
        ⟨⟨1⟩, ⟨1⟩, "then", .output, .exec, none, none, [⟨2⟩]⟩ steps _ after rfl rfl rfl
        (by decide) steps_checked ran
    cases same
    exact ⟨after, writers, ran, spawned.length_eq.symm, sequence, inherits⟩
  · obtain ⟨after, expanded⟩ := CrossedLegs.firstExpanded
    obtain ⟨_, _, writers, _, _, _, runs⟩ :=
      (CrossedLegs.env.writes_run_in_order CrossedLegs.startWellFormed).2 _ _ _ _ expanded
    exact ⟨after, writers, expanded, runs⟩

end SplicedWrites

end RigLowering
