import Mathlib.Data.List.Induction
import RigLowering.Proofs.EvaluatorLowering

namespace RigLowering

namespace RigRegistry

/-- Whether this is an evaluator whose rig type is registered. -/
def binds (registry : RigRegistry) (kind : NodeKind) : Bool :=
  (kind.settings?.bind registry.rigType?).isSome

variable {registry : RigRegistry}

/-- A hierarchy that contradicts no registered class knows them all once they are merged into
it. -/
theorem AgreesWith.extends_merge {hierarchy : ClassHierarchy}
    (agrees : registry.AgreesWith hierarchy) :
    registry.hierarchy.Extends (hierarchy.merge registry.hierarchy) := by
  intro name parent found
  rw [ClassHierarchy.parent?, ClassHierarchy.merge, NameMap.find?_merge, Option.or_eq_some_iff]
  cases known : hierarchy.parents.find? name with
  | none => exact .inr ⟨rfl, found⟩
  | some other =>
      rw [parent?_hierarchy] at found
      obtain ⟨rigClass, registered, rfl⟩ := Option.map_eq_some_iff.mp found
      exact .inl (congrArg some (agrees registered known))

end RigRegistry

namespace Outcome

def isExpanded : Outcome → Bool
  | expanded .. => true
  | skipped _ => false

end Outcome

namespace Graph

/-- The number of evaluators whose rig type is registered. -/
def boundEvaluators (registry : RigRegistry) (graph : Graph) : Nat :=
  graph.nodes.toList.countP (registry.binds ·.kind)

theorem Lowering.start {graph : Graph} {source : NodeId} (regular : graph.Regular)
    (typed : graph.Typed) (began : source.index < graph.nodes.size) :
    Lowering graph source graph where
  toRegular := regular
  fits := typed.fits
  extended := .refl graph
  hierarchy := rfl
  began := began
  own := fun found _ => found
  secluded := by
    intro id far face _ _ found
    obtain ⟨owner, ownerFound, _⟩ := regular.owned found
    exact lt_size_of_node? ownerFound

end Graph

namespace Environment

open RigLowering.Graph

variable {env : Environment} {node : NodeId} {data : Node}

/-- Of the evaluators that have not been expanded yet, those are expanded that are bound. -/
theorem isRight_target {graph : Graph} (live : graph.node? node = some data)
    (active : ∀ settings, data.kind.settings? = some settings → settings.inert = false)
    {found : SkipReason ⊕ Target} (answered : env.target true graph node = .ok found) :
    found.isRight = env.registry.binds data.kind := by
  obtain ⟨other, read, decided⟩ := bind_eq_ok_iff.mp answered
  rw [node_eq_ok_iff, live] at read
  cases read
  unfold RigRegistry.binds
  split at decided
  · next none =>
      cases decided
      rw [none]
      rfl
  · next settings some =>
      rw [some, Option.bind_some]
      rw [active settings some] at decided
      cases bound : env.registry.rigType? settings with
      | none =>
          rw [bound] at decided
          cases decided
          rfl
      | some rigType =>
          rw [bound] at decided
          cases decided
          rfl

theorem unspoilt_expandNode {before : PassState} (full : before.fullCompile = true)
    (regular : before.graph.Regular) (typed : before.graph.Typed)
    (live : before.graph.node? node = some data)
    (active : ∀ settings, data.kind.settings? = some settings → settings.inert = false)
    (prepared : ∀ {target}, env.target true before.graph node = .ok (.inr target) →
      target.node = node ∧ target.Prepared env before.graph) :
    Unspoilt (env.expandNode node) before fun outcome _ =>
      outcome.isExpanded = env.registry.binds data.kind := by
  have read : Unspoilt (get : Pass PassState) before fun state after =>
      state = before ∧ after = before := ⟨rfl, rfl⟩
  refine read.bind ?_
  rintro _ _ ⟨rfl, rfl⟩
  rw [full]
  refine ((Pass.sturdy_query fun graph => env.firm_target true graph node).unspoilt
    Pass.yields_query_iff.mp).bind ?_
  rintro found _ ⟨rfl, answered⟩
  have bound := isRight_target live active answered
  cases found with
  | inl reason => exact unspoilt_pure bound
  | inr target =>
      obtain ⟨rfl, targetPrepared⟩ := prepared answered
      refine (Target.unspoilt_expand targetPrepared
        (.start regular typed (lt_size_of_node? live))).of_yields fun expanded => ?_
      obtain ⟨index, event, rfl⟩ := Target.yields_expand_outcome expanded
      exact bound

theorem tally_of_unspoilt {progress next : PassState × Tally} {bound : Bool}
    (unspoilt : Unspoilt (env.expandNode node) progress.1.checkpoint fun outcome _ =>
      outcome.isExpanded = bound) (ran : env.compileNode progress node = .ok next) :
    next.2.failed = progress.2.failed ∧
      next.2.expanded = progress.2.expanded + if bound then 1 else 0 := by
  unfold Unspoilt at unspoilt
  rcases compileNode_eq_ok ran with
    ⟨outcome, after, expanded, rfl⟩ | ⟨error, after, expanded, recoverable, _⟩
  · rw [expanded] at unspoilt
    rw [← unspoilt]
    cases outcome with
    | expanded index event => exact ⟨rfl, rfl⟩
    | skipped reason => exact ⟨rfl, rfl⟩
  · rw [expanded] at unspoilt
    exact (unspoilt recoverable).elim

section Authored

variable {registry : RigRegistry} {graph : Graph} {options : PassOptions}
  {progress next : PassState × Tally} {expanded : List NodeId} {lands : PinId → Option PinId}

/-- Expanding other evaluators leaves an evaluator as prepared as it was. -/
theorem prepared_of_rewired {current : Graph} {target : Target} (built : registry.Built)
    (tended : graph.Tended registry none) (rewired : Rewired graph current expanded lands)
    (old : node.index < graph.nodes.size) (fresh : node ∉ expanded)
    (knows : registry.hierarchy.Extends current.hierarchy)
    (answered : (⟨registry, .standard registry.base⟩ : Environment).target true current node =
      .ok (.inr target)) :
    target.node = node ∧ target.Prepared ⟨registry, .standard registry.base⟩ current := by
  obtain ⟨_, data, settings, rigType, live, read, _, bound, rfl⟩ := target_eq_inr answered
  refine ⟨rfl, built, rfl, bound, knows, ?_⟩
  intro id face found owner
  obtain ⟨oldFace, oldFound, _⟩ := (rewired.owns_iff old).mp ⟨face, found, owner⟩
  rw [rewired.extended.face?_eq oldFound] at found
  cases found
  rw [rewired.keeps old fresh] at live
  exact tended.conforms (by simp) ⟨data, live, read⟩ oldFound owner

theorem tally_of_authored (built : registry.Built) (tended : graph.Tended registry none)
    (rewired : Rewired graph progress.1.graph expanded lands) (typed : progress.1.graph.Typed)
    (knows : registry.hierarchy.Extends progress.1.graph.hierarchy)
    (full : progress.1.fullCompile = true) (fresh : node ∉ expanded)
    (live : graph.node? node = some data)
    (ran : compileNode ⟨registry, .standard registry.base⟩ progress node = .ok next) :
    next.2.failed = progress.2.failed ∧
      next.2.expanded = progress.2.expanded + if registry.binds data.kind then 1 else 0 := by
  have old := lt_size_of_node? live
  have opened := progress.1.graph.checkpoint_sameFrame
  have rewired : Rewired graph progress.1.checkpoint.graph expanded lands :=
    rewired.of_links_eq opened fun _ => rfl
  have unspoilt := @unspoilt_expandNode ⟨registry, .standard registry.base⟩ node data
    progress.1.checkpoint full rewired.regular (durable_typed.checkpoint typed)
    ((rewired.keeps old fresh).trans live) (fun settings read => tended.active ⟨data, live, read⟩)
    (prepared_of_rewired built tended rewired old fresh knows)
  exact tally_of_unspoilt unspoilt ran

theorem tally_foldlM (built : registry.Built) (tended : graph.Tended registry none)
    (full : options.fullCompile = true) {nodes : List NodeId} (nodup : nodes.Nodup)
    (there : ∀ node ∈ nodes, node.index < graph.nodes.size)
    (ran : nodes.foldlM (compileNode ⟨registry, .standard registry.base⟩)
      (.start registry options graph, .zero) = .ok next) :
    next.1.fullCompile = true ∧ next.2.failed = 0 ∧
      next.2.expanded = nodes.countP fun node =>
        (graph.node? node).any (registry.binds ·.kind) := by
  -- The tally speaks of the nodes that the pass has come to, so nodes are taken off the end.
  induction nodes using List.reverseRecOn generalizing next with
  | nil =>
      cases ran
      exact ⟨full, rfl, rfl⟩
  | append_singleton done node ih =>
      rw [List.foldlM_append] at ran
      obtain ⟨progress, reached, last⟩ := bind_eq_ok_iff.mp ran
      have stepped : compileNode ⟨registry, .standard registry.base⟩ progress node = .ok next := by
        simpa using last
      obtain ⟨doneNodup, _, apart⟩ := List.nodup_append.mp nodup
      have thereDone (other : NodeId) (member : other ∈ done) := there other (by simp [member])
      obtain ⟨stillFull, failed, counted⟩ := ih doneNodup thereDone reached
      obtain ⟨expanded, lands, progresses⟩ := progresses_foldlM doneNodup thereDone rfl rfl
        (.begin tended.toRegular done) reached
      have typed := durable_typed.foldlM_compileNode reached
        (tended.toTyped.mergeHierarchy registry.hierarchy)
      have hierarchy : progress.1.graph.hierarchy = graph.hierarchy.merge registry.hierarchy :=
        (durable_hierarchy _).foldlM_compileNode reached rfl
      have knows : registry.hierarchy.Extends progress.1.graph.hierarchy := by
        rw [hierarchy]
        exact RigRegistry.AgreesWith.extends_merge tended.agrees
      obtain ⟨data, live⟩ : ∃ data, graph.node? node = some data :=
        ⟨_, Array.getElem?_eq_getElem (there node (by simp))⟩
      have fresh : node ∉ expanded := fun member =>
        apart node (progresses.expanded_iff.mp member).1 node (by simp) rfl
      obtain ⟨sameFailed, oneMore⟩ :=
        tally_of_authored built tended progresses.rewired typed knows stillFull fresh live stepped
      refine ⟨(compileNode_fullCompile stepped).trans stillFull, sameFailed.trans failed, ?_⟩
      rw [oneMore, counted, List.countP_append, List.countP_singleton, live]
      rfl

end Authored

end Environment

namespace Graph

variable {registry : RigRegistry} {graph : Graph}

theorem Sound.boundEvaluators_eq (sound : graph.Sound) :
    graph.boundEvaluators registry = graph.composites.countP fun node =>
      (graph.node? node).any (registry.binds ·.kind) := by
  unfold boundEvaluators composites
  rw [List.countP_map, List.countP_filter]
  apply List.countP_congr
  intro node member
  obtain ⟨id, found⟩ := mem_nodes_iff.mp member
  simp only [Function.comp_apply, sound.nodeId found, found, Option.any_some]
  unfold RigRegistry.binds NodeKind.isComposite
  cases node.kind.settings? with
  | none => simp
  | some settings => simp

/-- A pass over an authored graph expands all evaluators that are bound to registered classes, and
none of them fails. -/
theorem Authored.compile_expands_bound {options : PassOptions} {compiled : CompiledGraph}
    (built : registry.Built) (authored : graph.Authored registry)
    (full : options.fullCompile = true)
    (ran : graph.compile registry (.standard registry.base) options = .ok compiled) :
    compiled.stats.failed = 0 ∧ compiled.stats.expanded = graph.boundEvaluators registry := by
  have tended := authored.tended
  obtain ⟨final, folded, rfl⟩ := compile_eq_ok ran
  obtain ⟨_, failed, expanded⟩ := Environment.tally_foldlM built tended full
    tended.composites_nodup (fun _ => tended.mem_composites_lt) folded
  exact ⟨failed, expanded.trans tended.boundEvaluators_eq.symm⟩

end Graph

namespace CrossedLegs

open RigLowering.Graph

theorem registryBuilt : registry.Built :=
  .register (.empty "Rig") (rfl : RigRegistry.register _ ⟨"Leg", "Rig",
    [⟨"height", .float, .input, .scalar⟩, ⟨"foot", .float, .output, .scalar⟩]⟩ = _)

/-- The consumer gets its pin while there are no evaluators yet. -/
def authoring : List AuthoringCommand := [
  .change (.addNode (.primitive "consumer")),
  .change (.addPin ⟨0⟩ .input .anyObject "rig"),
  .spawnEvaluator (some "Leg"),
  .spawnEvaluator (some "Leg"),
  .change (.link ⟨2⟩ ⟨0⟩),
  .change (.link ⟨3⟩ ⟨4⟩),
  .change (.link ⟨6⟩ ⟨1⟩)]

def assembled : Graph :=
  authoring.foldl (fun graph command => command.leaves registry graph) (.empty "CrossedLegs" none)

theorem assembledAuthored : assembled.Authored registry := by
  have consumer : ∀ settings, ¬ ((Graph.empty "CrossedLegs" none).pushNode
      (.primitive "consumer")).Evaluates ⟨0⟩ settings := by
    rintro settings ⟨data, found, read⟩
    cases found
    cases read
  have started : (Graph.empty "CrossedLegs" none).Authored registry := .start "CrossedLegs" none
  have pinned := (started.step (.change (.addNode (.primitive "consumer"))) rfl).step
    (.change (.addPin ⟨0⟩ .input .anyObject "rig")) consumer
  have spawned := (pinned.step (.spawnEvaluator (some "Leg")) trivial).step
    (.spawnEvaluator (some "Leg")) trivial
  exact ((spawned.step (.change (.link ⟨2⟩ ⟨0⟩)) trivial).step
    (.change (.link ⟨3⟩ ⟨4⟩)) trivial).step (.change (.link ⟨6⟩ ⟨1⟩)) trivial

/-- Two legs that feed each other are both expanded. -/
theorem assembled_expands_both :
    ∃ compiled, assembled.compile registry (.standard "Rig") .standard = .ok compiled ∧
      compiled.stats.failed = 0 ∧ compiled.stats.expanded = 2 := by
  have given : (assembled.compile registry (.standard "Rig") .standard).toOption.isSome := by
    decide +kernel
  obtain ⟨compiled, ran⟩ := exists_eq_ok given
  obtain ⟨failed, expanded⟩ :=
    Authored.compile_expands_bound registryBuilt assembledAuthored rfl ran
  exact ⟨compiled, ran, failed, expanded.trans (by decide +kernel)⟩

end CrossedLegs

end RigLowering
