import RigLowering.Proofs.Accounting
import RigLowering.Proofs.AuditPreservation
import RigLowering.Proofs.Lowering

namespace RigLowering

/-- No evaluator, one that has been expanded, or one whose rig type is not registered. -/
def NodeKind.IsSettled (registry : RigRegistry) (kind : NodeKind) : Prop :=
  ∀ settings, kind.settings? = some settings →
    settings.inert = true ∨ registry.rigType? settings = none

namespace Graph

def Settled (registry : RigRegistry) (graph : Graph) (node : NodeId) : Prop :=
  ∃ data, graph.node? node = some data ∧ data.kind.IsSettled registry

end Graph

namespace NodeKind

variable {registry : RigRegistry}

theorem isSettled_markInert (kind : NodeKind) :
    (kind.mapSettings EvaluatorSettings.markInert).IsSettled registry := by
  intro settings found
  cases kind with
  | evaluator settings =>
      cases found
      exact .inl rfl
  | _ => cases found

theorem isComposite_mapSettings (change : EvaluatorSettings → EvaluatorSettings)
    (kind : NodeKind) : (kind.mapSettings change).isComposite = kind.isComposite := by
  cases kind with
  | _ => rfl

end NodeKind

namespace Environment

open RigLowering.Graph

variable {env : Environment} {graph : Graph} {node : NodeId} {fullCompile : Bool}

theorem target_of_settled (settled : fullCompile = true → graph.Settled env.registry node) :
    ∃ reason, env.target fullCompile graph node = .ok (.inl reason) := by
  cases fullCompile with
  | false => exact ⟨_, rfl⟩
  | true =>
      obtain ⟨data, live, settled⟩ := settled rfl
      have read := node_eq_ok_iff.mpr live
      cases found : data.kind.settings? with
      | none => exact ⟨_, bind_eq_ok_iff.mpr ⟨data, read, by rw [found]; rfl⟩⟩
      | some settings =>
          cases inert : settings.inert with
          | true =>
              exact ⟨_, bind_eq_ok_iff.mpr ⟨data, read, by simp only [found, inert]; rfl⟩⟩
          | false =>
              have unresolved := (settled settings found).resolve_left (by simp [inert])
              exact ⟨_, bind_eq_ok_iff.mpr
                ⟨data, read, by simp only [found, inert, unresolved]; rfl⟩⟩

theorem settled_of_target {reason : SkipReason}
    (answered : env.target true graph node = .ok (.inl reason)) :
    graph.Settled env.registry node := by
  obtain ⟨data, live, decided⟩ := bind_eq_ok_iff.mp answered
  refine ⟨data, node_eq_ok_iff.mp live, fun settings found => ?_⟩
  rw [found] at decided
  cases inert : settings.inert with
  | true => exact .inl rfl
  | false =>
      right
      cases bound : env.registry.rigType? settings with
      | none => rfl
      | some rigType =>
          simp only [inert, bound] at decided
          cases decided

end Environment

namespace PassState

open RigLowering.Graph

variable {registry : RigRegistry}

theorem Settled.of_kinds {before after : Graph} {node : NodeId}
    (settled : before.Settled registry node)
    (same : after.kinds[node.index]? = before.kinds[node.index]?) :
    after.Settled registry node := by
  obtain ⟨data, live, settled⟩ := settled
  rw [getElem?_kinds, getElem?_kinds, live] at same
  obtain ⟨later, laterLive, equal⟩ := Option.map_eq_some_iff.mp same
  have kind : later.kind = data.kind := (Prod.ext_iff.mp equal).2
  exact ⟨later, laterLive, kind ▸ settled⟩

theorem lasting_settled (registry : RigRegistry) (node : NodeId) :
    Lasting (·.graph.Settled registry node) where
  edited := fun kinds settled => Settled.of_kinds settled (by rw [kinds])
  spawned := by
    intro state kind source _ settled
    refine Settled.of_kinds settled ?_
    obtain ⟨data, live, _⟩ := settled
    rw [kinds_withNode, List.getElem?_append_left]
    rw [length_kinds]
    exact lt_size_of_node? live
  warned := fun _ _ settled => settled
  reserved := fun _ settled => settled

theorem lasting_composites (composites : List NodeId) :
    Lasting (·.graph.composites = composites) where
  edited := by
    intro state graph kinds same
    rw [← same, composites_eq, kinds, ← composites_eq]
  spawned := fun source primitive same => (composites_withNode _ source primitive).trans same
  warned := fun _ _ same => same
  reserved := fun _ same => same

end PassState

namespace Edit

open RigLowering.Graph

variable {registry : RigRegistry}

theorem markInert_settles {node : NodeId} {graph after : Graph}
    (marked : Yields (modifyNode node (·.mapSettings EvaluatorSettings.markInert)) graph ()
      after) : after.Settled registry node := by
  rw [Yields, modifyNode_apply] at marked
  cases live : graph.node? node with
  | none =>
      rw [live] at marked
      cases marked
  | some data =>
      rw [live] at marked
      cases marked
      refine ⟨data.mapSettings EvaluatorSettings.markInert, ?_, data.kind.isSettled_markInert⟩
      rw [node?_changeNode, if_pos rfl, live]
      rfl

theorem keeps_settled_markInert (node other : NodeId) :
    Keeps (Settled registry · node)
      (modifyNode other (·.mapSettings EvaluatorSettings.markInert)) := by
  intro graph settled
  obtain ⟨data, live, settled⟩ := settled
  rcases changeSettings_cases other EvaluatorSettings.markInert graph with ⟨_, failed⟩ | changed
  · rw [failed]
    exact ⟨data, live, settled⟩
  · rw [changed]
    by_cases same : other = node
    · refine ⟨data.mapSettings EvaluatorSettings.markInert, ?_, data.kind.isSettled_markInert⟩
      rw [node?_changeNode, if_pos same, live]
      rfl
    · refine ⟨data, ?_, settled⟩
      rw [node?_changeNode, if_neg same, live]

theorem keeps_composites_markInert {composites : List NodeId} (node : NodeId) :
    Keeps (·.composites = composites)
      (modifyNode node (·.mapSettings EvaluatorSettings.markInert)) := by
  intro graph same
  rcases changeSettings_cases node EvaluatorSettings.markInert graph with ⟨_, failed⟩ | changed
  · rw [failed]
    exact same
  · rw [changed]
    refine (composites_changeNode _ _ ?_ ?_).trans same
    · exact fun _ => rfl
    · exact fun data => data.kind.isComposite_mapSettings _

end Edit

namespace Environment

open RigLowering.Graph PassState

variable {env : Environment} {progress next final : PassState × Tally} {node other : NodeId}

/-- What an expansion keeps, and what is there again after a rollback, is kept by the pass. -/
theorem keeps_compileNode {property : Graph → Prop}
    (lasting : Lasting (property ·.graph))
    (marked : ∀ node, Keeps property
      (Edit.modifyNode node (·.mapSettings EvaluatorSettings.markInert)))
    (noted : ∀ graph, property graph → property graph.checkpoint ∧ property graph.commit)
    (ran : env.compileNode progress node = .ok next) (holds : property progress.1.graph) :
    property next.1.graph := by
  have kept := keeps_expandNode lasting.keeps (fun _ holds => holds)
    (fun node state holds => marked node state.graph holds) env node progress.1.checkpoint
    (noted _ holds).1
  rcases compileNode_eq_ok ran with ⟨outcome, after, run, rfl⟩ | ⟨error, after, run, _, rfl⟩
  · rw [run] at kept
    exact (noted _ kept).2
  · exact (noted _ holds).2

theorem settled_compileNode (ran : env.compileNode progress node = .ok next)
    (settled : progress.1.graph.Settled env.registry other) :
    next.1.graph.Settled env.registry other :=
  keeps_compileNode (lasting_settled env.registry other)
    (fun node => Edit.keeps_settled_markInert other node) (fun _ settled => ⟨settled, settled⟩)
    ran settled

theorem composites_compileNode {composites : List NodeId}
    (ran : env.compileNode progress node = .ok next)
    (same : progress.1.graph.composites = composites) : next.1.graph.composites = composites :=
  keeps_compileNode (lasting_composites composites) Edit.keeps_composites_markInert
    (fun _ same => ⟨same, same⟩) ran same

/-- What is left alone is settled, and what is expanded is marked at the end. -/
theorem settled_expandNode {outcome : Outcome} {before after : PassState}
    (full : before.fullCompile = true)
    (yielded : Yields (env.expandNode node) before outcome after) :
    after.graph.Settled env.registry node := by
  rcases yields_expandNode yielded with ⟨reason, _, rfl, answered⟩ | ⟨target, found, expanding⟩
  · rw [full] at answered
    exact settled_of_target answered
  · obtain ⟨_, _, _, _, _, _, _, _, rfl⟩ := target_eq_inr found
    obtain ⟨_, _, _, afterInputs⟩ := yields_bind_iff.mp expanding
    obtain ⟨_, _, _, afterOutputs⟩ := yields_bind_iff.mp afterInputs
    obtain ⟨_, _, _, afterUnlink⟩ := yields_bind_iff.mp afterOutputs
    obtain ⟨_, marked, marking, returned⟩ := yields_bind_iff.mp afterUnlink
    obtain ⟨_, rfl⟩ := yields_pure_iff.mp returned
    exact Edit.markInert_settles (Pass.yields_edit marking)

theorem failed_le_compileNode (ran : env.compileNode progress node = .ok next) :
    progress.2.failed ≤ next.2.failed :=
  (adds_compileNode ran).failed ▸ Nat.le_add_right ..

theorem failed_le_foldlM {nodes : List NodeId}
    (ran : nodes.foldlM env.compileNode progress = .ok final) :
    progress.2.failed ≤ final.2.failed := by
  induction nodes generalizing progress with
  | nil =>
      cases ran
      exact Nat.le_refl _
  | cons node rest ih =>
      rw [List.foldlM_cons] at ran
      obtain ⟨middle, first, others⟩ := bind_eq_ok_iff.mp ran
      exact Nat.le_trans (failed_le_compileNode first) (ih others)

/-- Where no expansion fails, all composites end up settled. -/
theorem settled_foldlM {nodes : List NodeId} (full : progress.1.fullCompile = true)
    (ran : nodes.foldlM env.compileNode progress = .ok final)
    (clean : final.2.failed = progress.2.failed) :
    ∀ node ∈ nodes, final.1.graph.Settled env.registry node := by
  induction nodes generalizing progress with
  | nil => exact fun _ member => nomatch member
  | cons node rest ih =>
      rw [List.foldlM_cons] at ran
      obtain ⟨middle, first, others⟩ := bind_eq_ok_iff.mp ran
      have low := failed_le_compileNode first
      have high := failed_le_foldlM others
      have settled : middle.1.graph.Settled env.registry node := by
        rcases compileNode_eq_ok first with ⟨outcome, after, run, rfl⟩ | ⟨_, _, _, _, rfl⟩
        · have asked : progress.1.checkpoint.fullCompile = true := full
          have kept : after.graph.Settled env.registry node := settled_expandNode asked run
          exact kept
        · simp only [Tally.countFailure] at high
          omega
      refine List.forall_mem_cons.mpr ⟨?_, ih ((compileNode_fullCompile first).trans full) others
        (by omega)⟩
      exact env.keeps_foldlM_compileNode (·.graph.Settled env.registry node) settled_compileNode
        others settled

theorem compileNode_of_settled
    (settled : progress.1.fullCompile = true → progress.1.graph.Settled env.registry node) :
    env.compileNode progress node =
      .ok (progress.1.checkpoint.commit,
        { progress.2 with skipped := progress.2.skipped + 1 }) := by
  have answered : ∃ reason, env.target progress.1.checkpoint.fullCompile
      progress.1.checkpoint.graph node = .ok (.inl reason) := target_of_settled settled
  obtain ⟨reason, answered⟩ := answered
  have skipped : Yields (env.expandNode node) progress.1.checkpoint (.skipped reason)
      progress.1.checkpoint :=
    yields_bind_iff.mpr ⟨_, _, rfl, yields_bind_iff.mpr
      ⟨_, _, Pass.yields_query_iff.mpr ⟨rfl, answered⟩, rfl⟩⟩
  unfold compileNode
  rw [show (env.expandNode node).run progress.1.checkpoint = _ from skipped]
  rfl

theorem foldlM_of_settled {nodes : List NodeId}
    (settled : progress.1.fullCompile = true →
      ∀ node ∈ nodes, progress.1.graph.Settled env.registry node) :
    ∃ final, nodes.foldlM env.compileNode progress = .ok final ∧
      final.1.settled = progress.1.settled ∧
      final.2 = { progress.2 with skipped := progress.2.skipped + nodes.length } := by
  induction nodes generalizing progress with
  | nil => exact ⟨progress, rfl, rfl, rfl⟩
  | cons node rest ih =>
      obtain ⟨final, ran, same, tally⟩ := @ih (progress.1.checkpoint.commit,
        { progress.2 with skipped := progress.2.skipped + 1 })
        fun full other member => settled full other (List.mem_cons_of_mem _ member)
      refine ⟨final, ?_, same, ?_⟩
      · rw [List.foldlM_cons,
          compileNode_of_settled fun full => settled full node (List.mem_cons_self ..)]
        exact ran
      · rw [tally, List.length_cons, Nat.add_assoc, Nat.add_comm 1]

end Environment

namespace Graph

variable {graph : Graph} {registry : RigRegistry} {runtime : RigRuntime} {options : PassOptions}
  {compiled : CompiledGraph}

/-- The graph knows the rig classes already, so it learns nothing more when it is compiled again. -/
theorem commit_start_of_merged (options : PassOptions) {other : ClassHierarchy}
    (merged : graph.hierarchy = other.merge registry.hierarchy) :
    (PassState.start registry options graph).graph.commit = graph.commit := by
  have same : graph.hierarchy.merge registry.hierarchy = graph.hierarchy := by
    rw [merged]
    exact congrArg ClassHierarchy.mk (NameMap.merge_merge ..)
  change { graph.commit with hierarchy := graph.hierarchy.merge registry.hierarchy } = graph.commit
  rw [same]
  rfl

/-- Where no expansion fails, the graph that a pass hands back is one that the same pass leaves as
it is: it skips all the composites, which are those of the first pass, and has nothing to say. -/
theorem compile_again_of_clean (ran : graph.compile registry runtime options = .ok compiled)
    (clean : compiled.stats.failed = 0) :
    ∃ again, compiled.graph.compile registry runtime options = .ok again ∧
      again.graph.name = compiled.graph.name ∧
      again.graph.parentClass = compiled.graph.parentClass ∧
      again.graph.nodes = compiled.graph.nodes ∧ again.graph.pins = compiled.graph.pins ∧
      again.graph.hierarchy = compiled.graph.hierarchy ∧
      again.log = .empty ∧
      again.stats = ⟨compiled.stats.composites, 0, compiled.stats.composites, 0, 0, 0⟩ := by
  obtain ⟨_, agreed, final, folded, audited, rfl⟩ := compile_eq_ok_iff.mp ran
  let env : Environment := ⟨registry, runtime⟩
  have settled (full : options.fullCompile = true) :
      ∀ node ∈ graph.composites, final.1.graph.Settled registry node :=
    env.settled_foldlM full folded clean
  have composites : final.1.graph.composites = graph.composites :=
    env.keeps_foldlM_compileNode (·.graph.composites = graph.composites)
      env.composites_compileNode folded rfl
  have merged : final.1.graph.hierarchy = graph.hierarchy.merge registry.hierarchy :=
    (durable_hierarchy _).foldlM_compileNode folded rfl
  have begun := commit_start_of_merged options merged
  obtain ⟨last, foldedAgain, sameState, tally⟩ := @Environment.foldlM_of_settled env
    (.start registry options final.1.graph, .zero) graph.composites settled
  have sameGraph : last.1.graph.commit = final.1.graph.commit :=
    (congrArg PassState.graph sameState).trans begun
  have auditedAgain : last.1.graph.auditIf options.audited = .ok () := by
    rw [← steady_auditIf, sameGraph, steady_auditIf]
    exact audited
  obtain ⟨name, parentClass, nodes, pins, hierarchy, _⟩ := Graph.mk.inj sameGraph
  have log : last.1.log = .empty := congrArg PassState.log sameState
  have issued : last.1.indices.issued = 0 := congrArg (·.indices.issued) sameState
  have spawned : last.1.spawned = 0 := congrArg PassState.spawned sameState
  refine ⟨_, compile_eq_ok_iff.mpr
    ⟨audited, agreed, last, composites.symm ▸ foldedAgain, auditedAgain, rfl⟩,
    name, parentClass, nodes, pins, hierarchy, log, ?_⟩
  simp only [PassState.stats, tally, issued, spawned, composites, Tally.zero, Nat.zero_add]

end Graph

namespace CrossedLegs

theorem compiles_cleanly :
    ∃ compiled, graph.compile registry (.standard "Rig") .standard = .ok compiled ∧
      compiled.stats.failed = 0 := by
  have clean : (graph.compile registry (.standard "Rig") .standard).toOption.map
      (·.stats.failed) = some 0 := by decide +kernel
  obtain ⟨compiled, ran⟩ := compiles
  rw [ran] at clean
  exact ⟨compiled, ran, Option.some.inj clean⟩

/-- The legs are placeholders after the first pass, and the second one skips them both. -/
theorem compile_again_of_legs :
    ∃ compiled again, graph.compile registry (.standard "Rig") .standard = .ok compiled ∧
      compiled.stats.failed = 0 ∧
      compiled.graph.compile registry (.standard "Rig") .standard = .ok again ∧
      again.graph.nodes = compiled.graph.nodes ∧ again.graph.pins = compiled.graph.pins ∧
      again.log = .empty ∧
      again.stats = ⟨compiled.stats.composites, 0, compiled.stats.composites, 0, 0, 0⟩ := by
  obtain ⟨compiled, ran, clean⟩ := compiles_cleanly
  obtain ⟨again, ranAgain, _, _, nodes, pins, _, log, stats⟩ :=
    Graph.compile_again_of_clean ran clean
  exact ⟨compiled, again, ran, clean, ranAgain, nodes, pins, log, stats⟩

end CrossedLegs

end RigLowering
