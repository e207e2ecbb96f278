import RigLowering.Proofs.PassRerouting

namespace RigLowering

theorem Environment.keeps_foldlM_compileNode (env : Environment) (property : PassState → Prop)
    (kept : ∀ {progress next node}, env.compileNode progress node = .ok next →
      property progress.1 → property next.1)
    {nodes : List NodeId} {progress next : PassState × Tally}
    (ran : nodes.foldlM env.compileNode progress = .ok next) (holds : property progress.1) :
    property next.1 := by
  induction nodes generalizing progress with
  | nil =>
      cases ran
      exact holds
  | cons node rest ih =>
      rw [List.foldlM_cons] at ran
      obtain ⟨middle, first, others⟩ := bind_eq_ok_iff.mp ran
      exact ih others (kept first holds)

namespace Graph

/-- No operation of an expansion takes the property away, and whether a checkpoint is open has
nothing to do with it. -/
structure Durable (property : Graph → Prop) : Prop extends Kept property where
  checkpoint : ∀ {graph}, property graph → property graph.checkpoint
  commit : ∀ {graph}, property graph → property graph.commit

section Durable

variable {property : Graph → Prop}

theorem Durable.pass (durable : Durable property) {α : Type} {step : Pass α}
    (composed : step.Composed) : Keeps (property ·.graph) step := by
  induction composed with
  | edit composed => exact fun state holds => composed.keeps durable.toKept state.graph holds
  | apart apart =>
      intro state holds
      rw [apart.graph_eq state]
      exact holds
  | bind _ _ first next => exact first.bind next

variable {env : Environment} {progress next : PassState × Tally}

theorem Durable.compileNode (durable : Durable property) {node : NodeId}
    (ran : env.compileNode progress node = .ok next) (holds : property progress.1.graph) :
    property next.1.graph := by
  rcases Environment.compileNode_cases ran with ⟨_, _, after, expanded, same⟩ | ⟨_, same⟩
  · have keeps := durable.pass (Pass.Composed.expandNode env node)
    have kept := keeps progress.1.checkpoint (durable.checkpoint holds)
    rw [show env.expandNode node progress.1.checkpoint = _ from expanded] at kept
    rw [same]
    exact durable.commit kept
  · rw [same]
    exact durable.commit holds

theorem Durable.foldlM_compileNode (durable : Durable property) {nodes : List NodeId}
    (ran : nodes.foldlM env.compileNode progress = .ok next) (holds : property progress.1.graph) :
    property next.1.graph :=
  env.keeps_foldlM_compileNode (property ·.graph) durable.compileNode ran holds

end Durable

theorem durable_sound : Durable Sound where
  toKept := kept_sound
  checkpoint := fun sound => sound.of_roster (fun _ => rfl) (fun _ => rfl) fun _ => rfl
  commit := fun sound => sound.of_roster (fun _ => rfl) (fun _ => rfl) fun _ => rfl

theorem environment_ne_corruptGraph (registry : RigRegistry) (runtime : RigRuntime)
    (defect : GraphDefect) : Environment.of registry runtime ≠ .error (.corruptGraph defect) := by
  unfold Environment.of
  split
  · exact fun same => by cases same
  · exact fun same => by cases same

/-- An error of an expansion comes out of the pass with the name of the node. -/
theorem foldlM_compileNode_ne_corruptGraph (env : Environment) (nodes : List NodeId)
    (progress : PassState × Tally) (defect : GraphDefect) :
    nodes.foldlM env.compileNode progress ≠ .error (.corruptGraph defect) := by
  induction nodes generalizing progress with
  | nil => exact fun same => by cases same
  | cons node rest ih =>
      rw [List.foldlM_cons]
      intro failed
      rcases bind_eq_error_iff.mp failed with first | ⟨middle, _, others⟩
      · obtain ⟨_, _, same, _⟩ := Environment.compileNode_eq_error first
        cases same
      · exact ih middle others

theorem compile_eq_corruptGraph {graph : Graph} {registry : RigRegistry} {runtime : RigRuntime}
    {options : PassOptions} {defect : GraphDefect}
    (failed : graph.compile registry runtime options = .error (.corruptGraph defect)) :
    graph.auditIf options.audited = .error (.corruptGraph defect) := by
  rcases bind_eq_error_iff.mp failed with first | ⟨_, audited, afterAudit⟩
  · exact first
  exfalso
  rcases bind_eq_error_iff.mp afterAudit with mismatch | ⟨env, _, afterEnvironment⟩
  · exact environment_ne_corruptGraph registry runtime defect mismatch
  rcases bind_eq_error_iff.mp afterEnvironment with spoilt | ⟨final, ran, finishing⟩
  · exact foldlM_compileNode_ne_corruptGraph _ _ _ defect spoilt
  rcases bind_eq_error_iff.mp finishing with corrupt | ⟨_, _, returned⟩
  · unfold auditIf at audited corrupt
    split at audited
    · have sound := audit_eq_ok_iff.mp audited
      have started : (PassState.start registry options graph).graph.Sound :=
        sound.of_roster (fun _ => rfl) (fun _ => rfl) fun _ => rfl
      have finished := audit_eq_ok_iff.mpr (durable_sound.foldlM_compileNode ran started)
      rw [if_pos ‹_›, finished] at corrupt
      cases corrupt
    · rw [if_neg ‹_›] at corrupt
      cases corrupt
  · cases returned

/-- A graph that passes its audit goes on passing it through the expansion of any node, whatever
comes of the expansion.  A pass that audits its graphs therefore reports just the defects that the
graph has had from the start. -/
theorem expansion_never_corrupts :
    (∀ (env : Environment) (node : NodeId) (state : PassState), state.graph.audit = .ok () →
      ((env.expandNode node).run state).2.graph.audit = .ok ()) ∧
    ∀ (graph : Graph) (registry : RigRegistry) (runtime : RigRuntime) (options : PassOptions),
      options.audited = true → ∀ defect,
        (graph.compile registry runtime options = .error (.corruptGraph defect) ↔
          graph.audit = .error (.corruptGraph defect)) := by
  constructor
  · intro env node state audited
    exact audit_eq_ok_iff.mpr (durable_sound.pass (Pass.Composed.expandNode env node) state
      (audit_eq_ok_iff.mp audited))
  · intro graph registry runtime options audited defect
    have asked : graph.auditIf options.audited = graph.audit := if_pos audited
    constructor
    · intro failed
      exact asked.symm.trans (compile_eq_corruptGraph failed)
    · intro corrupt
      exact bind_eq_error_iff.mpr (.inl (asked.trans corrupt))

end Graph

namespace CrossedLegs

/-- The place of the consumer's pin is empty. -/
def severed : Graph :=
  { graph with pins := graph.pins.pop }

theorem expansion_keeps_audit :
    ((env.expandNode ⟨0⟩).run start).2.graph.audit = .ok () ∧
      severed.compile registry (.standard "Rig") .standard =
        .error (.corruptGraph (.listedPinMissing ⟨2⟩ ⟨6⟩)) := by
  obtain ⟨keeps, reports⟩ := Graph.expansion_never_corrupts
  exact ⟨keeps env ⟨0⟩ start startWellFormed.audited,
    (reports severed registry (.standard "Rig") .standard rfl _).mpr rfl⟩

end CrossedLegs

end RigLowering
