import RigLowering.Proofs.PassRerouting
import RigLowering.Proofs.Routine
import RigLowering.Proofs.Unspoilt

namespace RigLowering

section Endings

variable {σ α β : Type} {step first : ExceptT Error (StateM σ) α}
  {next : α → ExceptT Error (StateM σ) β} {before : σ} {done mid : α → σ → Prop}
  {last : β → σ → Prop} {property spoilt : σ → Prop}

/-- From `before` the step leaves what `done` says where it succeeds, and what `spoilt` says where
a refused link has spoilt it. -/
def Ends (step : ExceptT Error (StateM σ) α) (before : σ) (done : α → σ → Prop)
    (spoilt : σ → Prop) : Prop :=
  match step before with
  | (.ok value, after) => done value after
  | (.error error, after) => error.isRecoverable → spoilt after

theorem Ends.bind (ends : Ends first before mid spoilt)
    (nextEnds : ∀ value after, mid value after → Ends (next value) after last spoilt) :
    Ends (first >>= next) before last spoilt := by
  unfold Ends at ends ⊢
  rw [bind_apply]
  cases ran : first before with
  | mk result after =>
      rw [ran] at ends
      cases result with
      | ok value => exact nextEnds value after ends
      | error error => exact ends

theorem ends_pure {value : α} (holds : done value before) :
    Ends (pure value : ExceptT Error (StateM σ) α) before done spoilt :=
  holds

theorem Ends.mono (ends : Ends step before mid spoilt)
    (implied : ∀ value after, mid value after → done value after) :
    Ends step before done spoilt := by
  unfold Ends at ends ⊢
  cases ran : step before with
  | mk result after =>
      rw [ran] at ends
      cases result with
      | ok value => exact implied value after ends
      | error error => exact ends

theorem Ends.done_of_ok {value : α} {after : σ} (ends : Ends step before done spoilt)
    (ran : step before = (.ok value, after)) : done value after := by
  unfold Ends at ends
  rwa [ran] at ends

theorem Ends.spoilt_of_error {error : Error} {after : σ} (ends : Ends step before done spoilt)
    (ran : step before = (.error error, after)) (recoverable : error.isRecoverable) :
    spoilt after := by
  unfold Ends at ends
  rw [ran] at ends
  exact ends recoverable

theorem Keeps.ends (keeps : Keeps property step) (holds : property before)
    (implied : property (step before).2 → spoilt (step before).2) :
    Ends step before (fun _ => property) spoilt := by
  have kept := keeps before holds
  unfold Ends
  cases ran : step before with
  | mk result after =>
      rw [ran] at kept implied
      cases result with
      | ok value => exact kept
      | error error => exact fun _ => implied kept

theorem Keeps.ends_sturdy (keeps : Keeps property step) (sturdy : Sturdy step)
    (holds : property before) : Ends step before (fun _ => property) spoilt := by
  have kept := keeps before holds
  have firm := sturdy before
  unfold Ends
  cases ran : step before with
  | mk result after =>
      rw [ran] at kept firm
      cases result with
      | ok value => exact kept
      | error error => exact fun recoverable => (firm error rfl recoverable).elim

end Endings

namespace IndexAllocator

/-- As many indices have been issued as the next one is past the base. -/
def Counts (allocator : IndexAllocator) (base : UInt32) : Prop :=
  ∀ index, allocator.next = some index → index.toNat = base.toNat + allocator.issued

theorem counts_startingAt (base : UInt32) : (startingAt base).Counts base := by
  rintro _ ⟨⟩
  rfl

theorem successor?_toNat {index other : UInt32} (next : successor? index = some other) :
    other.toNat = index.toNat + 1 := by
  unfold successor? at next
  split at next
  · next bound =>
      cases next
      rw [UInt32.toNat_add]
      exact Nat.mod_eq_of_lt bound
  · cases next

variable {allocator after : IndexAllocator} {base index : UInt32}

theorem Counts.take (counts : allocator.Counts base) (taken : allocator.take = (.ok index, after)) :
    index.toNat = base.toNat + allocator.issued ∧ after.issued = allocator.issued + 1 ∧
      after.Counts base := by
  unfold IndexAllocator.take at taken
  split at taken
  · cases taken
  · next next =>
      cases taken
      refine ⟨counts _ next, rfl, fun later laterNext => ?_⟩
      rw [successor?_toNat laterNext, counts _ next]
      rfl

end IndexAllocator

/-- No node comes or goes where one is changed. -/
theorem Edit.size_nodes_modifyNode (id : NodeId) (change : Node → Node) (graph : Graph) :
    (modifyNode id change graph).2.nodes.size = graph.nodes.size := by
  rw [modifyNode_apply]
  cases graph.node? id with
  | none => rfl
  | some node => exact Array.size_modify ..

/-! An expansion that comes far enough to be spoilt has taken one index, and so has one that
succeeds. -/

namespace PassState

theorem lasting_indices (indices : IndexAllocator) : Lasting (·.indices = indices) where
  edited := fun _ same => same
  spawned := fun _ _ same => same
  warned := fun _ _ same => same
  reserved := fun _ same => same

/-- One index has been taken since `before`. -/
def Drawn (before : PassState) (index : UInt32) (after : PassState) : Prop :=
  before.indices.take = (.ok index, after.indices)

theorem lasting_drawn (before : PassState) (index : UInt32) : Lasting (before.Drawn index) where
  edited := fun _ drawn => drawn
  spawned := fun _ _ drawn => drawn
  warned := fun _ _ drawn => drawn
  reserved := fun _ drawn => drawn

end PassState

namespace Pass

open PassState

theorem ends_takeIndex {before state : PassState} (same : state.indices = before.indices)
    {spoilt : PassState → Prop} :
    Ends takeIndex state (fun index after => before.Drawn index after) spoilt := by
  unfold Ends takeIndex
  cases taken : state.indices.take with
  | mk result indices =>
      cases result with
      | ok index =>
          change before.indices.take = (.ok index, indices)
          rw [← same, taken]
      | error error =>
          intro recoverable
          exact (sturdy_takeIndex state error (congrArg Prod.fst taken) recoverable).elim

end Pass

namespace Target

open PassState

variable {env : Environment} {target : Target} {before state : PassState}

/-- Some index has been taken since `before`. -/
private abbrev DrawnAny (before after : PassState) : Prop :=
  ∃ index, before.Drawn index after

private theorem ends_routine {α : Type} {step : Pass α} {index : UInt32}
    (routine : step.Routine) (drawn : before.Drawn index state) :
    Ends step state (fun _ => before.Drawn index) (DrawnAny before) :=
  ((lasting_drawn before index).keeps routine).ends drawn fun kept => ⟨index, kept⟩

private theorem ends_allocate (same : state.indices = before.indices) :
    Ends (target.allocate env) state (fun subRig after => before.Drawn subRig.index after)
      (DrawnAny before) := by
  rw [allocate_eq]
  refine (((lasting_indices before.indices).keeps (.quiet (.spawn _ _ rfl rfl))).ends_sturdy
    (Pass.sturdy_spawn _ _ _) same).bind fun call spawned same => ?_
  refine (Pass.ends_takeIndex same).bind fun index taken drawn => ?_
  refine (ends_routine (.quiet (target.present_quiet _ _)) drawn).bind fun pin presented drawn => ?_
  exact drawn

private theorem ends_expandInputs :
    Ends (target.expandInputs env) before
      (fun gathered after => match gathered with
        | none => after.indices = before.indices
        | some gathered => before.Drawn gathered.subRig.index after)
      (DrawnAny before) := by
  rw [expandInputs_eq]
  refine (((lasting_indices before.indices).keeps (.parameters env target _)).ends_sturdy
    (target.sturdy_parameters env _) rfl).bind fun parameters listed same => ?_
  split
  · exact ends_pure same
  · refine (ends_allocate same).bind fun subRig allocated drawn => ?_
    exact (ends_routine (.quiet (target.gather_quiet env _ _)) drawn).bind fun _ _ drawn => drawn

private theorem ends_expandOutputs {gathered : Option GatheredInputs}
    (known : match gathered with
      | none => state.indices = before.indices
      | some gathered => before.Drawn gathered.subRig.index state) :
    Ends (target.expandOutputs env gathered) state (fun index after => before.Drawn index after)
      (DrawnAny before) := by
  have provided : Ends (target.provide env gathered) state
      (fun subRig after => before.Drawn subRig.index after) (DrawnAny before) := by
    cases gathered with
    | none => exact ends_allocate known
    | some gathered => exact known
  rw [expandOutputs_eq]
  refine provided.bind fun subRig allocated drawn => ?_
  exact (ends_routine (target.deliver_routine env _ _) drawn).bind fun _ _ drawn => drawn

theorem ends_expand :
    Ends (target.expand env) before
      (fun outcome after => ∃ index event, outcome = .expanded index event ∧
        before.Drawn index after)
      fun after => ∃ index, before.Drawn index after := by
  refine ends_expandInputs.bind fun gathered _ known => ?_
  refine (ends_expandOutputs known).bind fun index _ drawn => ?_
  refine (ends_routine (.quiet (.edit (Edit.unlinkNode_confined _))) drawn).bind fun _ _ drawn => ?_
  have marking : Keeps (before.Drawn index)
      (Pass.edit (.modifyNode target.node (·.mapSettings EvaluatorSettings.markInert))) :=
    fun _ drawn => drawn
  exact (marking.ends drawn fun kept => ⟨index, kept⟩).bind fun _ _ drawn => ⟨index, _, rfl, drawn⟩

end Target

/-- What comes of one composite. -/
abbrev Result := Except Error Outcome

namespace Result

def isExpanded : Result → Bool
  | .ok (.expanded ..) => true
  | _ => false

def isSkipped : Result → Bool
  | .ok (.skipped _) => true
  | _ => false

def isFailure : Result → Bool
  | .error _ => true
  | .ok _ => false

/-- The index of the sub-rig that the evaluator has come to use. -/
def index? : Result → Option UInt32
  | .ok (.expanded index _) => some index
  | _ => none

end Result

namespace Environment

/-- The composites that the pass comes to from `progress`, each with what becomes of it. -/
def results (env : Environment) :
    PassState × Tally → List NodeId → List (NodeId × Result)
  | _, [] => []
  | progress, node :: rest =>
      (node, ((env.expandNode node).run progress.1.checkpoint).1) ::
        match env.compileNode progress node with
        | .ok next => env.results next rest
        | .error _ => []

end Environment

namespace Graph

def results (graph : Graph) (registry : RigRegistry) (runtime : RigRuntime)
    (options : PassOptions) : List (NodeId × Result) :=
  Environment.results ⟨registry, runtime⟩ (.start registry options graph, .zero) graph.composites

end Graph

namespace PassState

/-- What a state of the pass has to show for the composites that it has been through. -/
structure Books (base : UInt32) (nodeCount : Nat) (state : PassState) (tally : Tally) : Prop where
  issued : state.indices.issued = tally.expanded + tally.failed
  next : state.indices.Counts base
  nodes : state.graph.nodes.size = nodeCount + state.spawned
  errors : state.log.errorCount = tally.failed

theorem lasting_nodeCount (nodeCount : Nat) :
    Lasting fun state => state.graph.nodes.size = nodeCount + state.spawned where
  edited := by
    intro state graph kinds counted
    rw [← Graph.length_kinds, kinds, Graph.length_kinds]
    exact counted
  spawned := by
    intro state kind source _ counted
    rw [← Graph.length_kinds, Graph.kinds_withNode, List.length_append, Graph.length_kinds, counted]
    rfl
  warned := fun _ _ counted => counted
  reserved := fun _ counted => counted

theorem lasting_errorCount (errorCount : Nat) : Lasting (·.log.errorCount = errorCount) where
  edited := fun _ counted => counted
  spawned := fun _ _ counted => counted
  warned := by
    intro state node message counted
    rw [← counted]
    simp [report, MessageLog.push, MessageLog.errorCount]
  reserved := fun _ counted => counted

end PassState

namespace Result

theorem index?_eq_some_iff {result : Result} {index : UInt32} :
    result.index? = some index ↔ ∃ event, result = .ok (.expanded index event) := by
  constructor
  · intro taken
    rcases result with _ | (⟨_, event⟩ | _)
    · cases taken
    · cases taken
      exact ⟨event, rfl⟩
    · cases taken
  · rintro ⟨event, rfl⟩
    rfl

theorem isSkipped_iff {result : Result} :
    result.isSkipped ↔ ∃ reason, result = .ok (.skipped reason) := by
  constructor
  · intro skipped
    rcases result with _ | (_ | reason)
    · cases skipped
    · cases skipped
    · exact ⟨reason, rfl⟩
  · rintro ⟨reason, rfl⟩
    rfl

/-- A result is of one kind. -/
theorem countP_singleton (result : Result) :
    [result].countP isExpanded + [result].countP isSkipped + [result].countP isFailure = 1 := by
  rcases result with _ | (_ | _)
  · rfl
  · rfl
  · rfl

theorem countP_eq_length (results : List Result) :
    results.countP isExpanded + results.countP isSkipped + results.countP isFailure =
      results.length := by
  induction results with
  | nil => rfl
  | cons result rest ih =>
      have one := countP_singleton result
      rw [← List.singleton_append, List.countP_append, List.countP_append, List.countP_append,
        List.length_append, ← ih, List.length_singleton]
      omega

end Result

namespace Tally

/-- Besides what `before` has counted, `after` has counted the results. -/
structure Adds (before : Tally) (results : List Result) (after : Tally) : Prop where
  expanded : after.expanded = before.expanded + results.countP Result.isExpanded
  skipped : after.skipped = before.skipped + results.countP Result.isSkipped
  failed : after.failed = before.failed + results.countP Result.isFailure

theorem Adds.nil (tally : Tally) : Adds tally [] tally :=
  ⟨rfl, rfl, rfl⟩

theorem Adds.cons {before middle after : Tally} {result : Result}
    {results : List Result} (first : Adds before [result] middle)
    (others : Adds middle results after) : Adds before (result :: results) after where
  expanded := by
    rw [others.expanded, first.expanded, Nat.add_assoc, ← List.countP_append, List.singleton_append]
  skipped := by
    rw [others.skipped, first.skipped, Nat.add_assoc, ← List.countP_append, List.singleton_append]
  failed := by
    rw [others.failed, first.failed, Nat.add_assoc, ← List.countP_append, List.singleton_append]

theorem adds_count (tally : Tally) (outcome : Outcome) :
    Adds tally [.ok outcome] (tally.count outcome) := by
  cases outcome with
  | expanded index event => exact ⟨rfl, rfl, rfl⟩
  | skipped reason => exact ⟨rfl, rfl, rfl⟩

theorem adds_countFailure (tally : Tally) (error : Error) :
    Adds tally [.error error] tally.countFailure :=
  ⟨rfl, rfl, rfl⟩

end Tally

namespace Environment

open PassState

variable {env : Environment} {progress next final : PassState × Tally} {node : NodeId}
  {base : UInt32} {nodeCount : Nat}

theorem ends_expandNode {before : PassState} :
    Ends (env.expandNode node) before
      (fun outcome after => match outcome with
        | .skipped _ => after.indices = before.indices
        | .expanded index _ => before.Drawn index after)
      fun after => ∃ index, before.Drawn index after := by
  have read : Ends (get : Pass PassState) before
      (fun state after => state = before ∧ after = before)
      fun after => ∃ index, before.Drawn index after := ⟨rfl, rfl⟩
  refine read.bind fun state after ⟨_, same⟩ => ?_
  have asking : Keeps (· = before) (Pass.query (env.target state.fullCompile · node)) :=
    fun _ same => same
  refine (asking.ends_sturdy (Pass.sturdy_query fun graph => env.firm_target _ graph node)
    same).bind ?_
  rintro found _ rfl
  cases found with
  | inl reason => exact ends_pure rfl
  | inr target =>
      refine Target.ends_expand.mono fun outcome after expanded => ?_
      obtain ⟨index, event, rfl, drawn⟩ := expanded
      exact drawn

theorem adds_compileNode (ran : env.compileNode progress node = .ok next) :
    progress.2.Adds [((env.expandNode node).run progress.1.checkpoint).1] next.2 := by
  unfold Pass.run
  rcases compileNode_eq_ok ran with ⟨outcome, after, run, rfl⟩ | ⟨error, after, run, _, rfl⟩
  · rw [run]
    exact progress.2.adds_count outcome
  · rw [run]
    exact progress.2.adds_countFailure error

/-- The counts go on agreeing, and an evaluator that is expanded gets the next index. -/
theorem books_compileNode (books : progress.1.Books base nodeCount progress.2)
    (ran : env.compileNode progress node = .ok next) :
    next.1.Books base nodeCount next.2 ∧
      ∀ index, Result.index? ((env.expandNode node).run progress.1.checkpoint).1 = some index →
        index.toNat = base.toNat + (progress.2.expanded + progress.2.failed) := by
  have ends := @ends_expandNode env node progress.1.checkpoint
  have nodes := keeps_expandNode (lasting_nodeCount nodeCount).keeps (fun _ counted => counted)
    (fun node state counted => (Edit.size_nodes_modifyNode node _ state.graph).trans counted)
    env node progress.1.checkpoint books.nodes
  have errors := keeps_expandNode (lasting_errorCount progress.2.failed).keeps
    (fun _ counted => counted) (fun _ _ counted => counted) env node progress.1.checkpoint
    books.errors
  unfold Pass.run
  rcases compileNode_eq_ok ran with
    ⟨outcome, after, run, rfl⟩ | ⟨error, after, run, recoverable, rfl⟩
  · have known := ends.done_of_ok run
    rw [run] at nodes errors ⊢
    cases outcome with
    | skipped reason =>
        have same : after.indices = progress.1.indices := known
        refine ⟨⟨?_, ?_, nodes, errors⟩, fun _ taken => by cases taken⟩
        · exact same ▸ books.issued
        · exact same ▸ books.next
    | expanded index event =>
        obtain ⟨value, issued, counts⟩ := books.next.take known
        rw [books.issued] at value issued
        refine ⟨⟨issued.trans (Nat.add_right_comm ..), counts, nodes, errors⟩, ?_⟩
        rintro _ ⟨⟩
        exact value
  · obtain ⟨index, drawn⟩ := ends.spoilt_of_error run recoverable
    obtain ⟨_, issued, counts⟩ := books.next.take drawn
    rw [books.issued] at issued
    rw [run] at errors ⊢
    refine ⟨⟨issued, counts, books.nodes, ?_⟩, fun _ taken => by cases taken⟩
    have counted : after.log.errorCount = progress.2.failed := errors
    simp only [MessageLog.errorCount, MessageLog.push, List.countP_append] at counted ⊢
    rw [counted]
    rfl

theorem books_foldlM {nodes : List NodeId}
    (books : progress.1.Books base nodeCount progress.2)
    (ran : nodes.foldlM env.compileNode progress = .ok final) :
    (env.results progress nodes).map (·.1) = nodes ∧
      final.1.Books base nodeCount final.2 ∧
      progress.2.Adds ((env.results progress nodes).map (·.2)) final.2 ∧
      ∀ place node index event,
        ((env.results progress nodes).filter (!Result.isSkipped ·.2))[place]? =
            some (node, .ok (.expanded index event)) →
          index.toNat = base.toNat + (progress.2.expanded + progress.2.failed + place) := by
  induction nodes generalizing progress with
  | nil =>
      cases ran
      exact ⟨rfl, books, .nil _, fun _ _ _ _ taken => by cases taken⟩
  | cons node rest ih =>
      rw [List.foldlM_cons] at ran
      obtain ⟨next, first, others⟩ := bind_eq_ok_iff.mp ran
      obtain ⟨nextBooks, value⟩ := books_compileNode books first
      have added := adds_compileNode first
      obtain ⟨names, finalBooks, laterAdded, values⟩ := ih nextBooks others
      have unfolded : env.results progress (node :: rest) =
          (node, ((env.expandNode node).run progress.1.checkpoint).1) ::
            env.results next rest := by
        rw [results, first]
      rw [unfolded]
      refine ⟨congrArg (node :: ·) names, finalBooks, added.cons laterAdded, ?_⟩
      generalize ((env.expandNode node).run progress.1.checkpoint).1 = result at value added ⊢
      intro place other index event taken
      cases skipped : Result.isSkipped result with
      | true =>
          obtain ⟨reason, rfl⟩ := Result.isSkipped_iff.mp skipped
          rw [values place other index event taken, added.expanded, added.failed]
          rfl
      | false =>
          have one := Result.countP_singleton result
          have none : [result].countP Result.isSkipped = 0 := by simp [skipped]
          rw [List.filter_cons_of_pos (by simp [skipped])] at taken
          cases place with
          | zero =>
              cases taken
              exact value index rfl
          | succ place =>
              rw [values place other index event taken, added.expanded, added.failed]
              omega

end Environment

/-- What a pass reports adds up, where its indices start from `base` and these are the composites
that it has come to, each with what came of it. -/
structure CompiledGraph.Accounts (compiled : CompiledGraph) (graph : Graph) (base : UInt32)
    (results : List (NodeId × Result)) : Prop where
  reached : results.map (·.1) = graph.composites
  expanded : compiled.stats.expanded = results.countP (·.2.isExpanded)
  skipped : compiled.stats.skipped = results.countP (·.2.isSkipped)
  failed : compiled.stats.failed = results.countP (·.2.isFailure)
  composites : compiled.stats.composites =
    compiled.stats.expanded + compiled.stats.skipped + compiled.stats.failed
  allocations : compiled.stats.allocations = compiled.stats.expanded + compiled.stats.failed
  nodes : compiled.graph.nodes.size = graph.nodes.size + compiled.stats.intermediateNodes
  errors : compiled.log.errorCount = compiled.stats.failed
  success : compiled.isSuccess ↔ compiled.stats.failed = 0
  indices : ∀ place node index event,
    (results.filter (!·.2.isSkipped))[place]? = some (node, .ok (.expanded index event)) →
      index.toNat = base.toNat + place ∧ base.toNat + place < UInt32.size
  distinct : (results.filterMap (·.2.index?)).Nodup

/-- Indices that count the places of the list are all different. -/
theorem Result.nodup_indices {base : Nat} {results : List (NodeId × Result)}
    (counted : ∀ place node index event,
      (results.filter (!·.2.isSkipped))[place]? = some (node, .ok (.expanded index event)) →
        index.toNat = base + place) : (results.filterMap (·.2.index?)).Nodup := by
  have kept : results.filterMap (·.2.index?) =
      (results.filter (!·.2.isSkipped)).filterMap (·.2.index?) := by
    rw [List.filterMap_filter]
    congr 1
    funext ⟨node, result⟩
    cases skipped : result.isSkipped with
    | true =>
        obtain ⟨reason, rfl⟩ := isSkipped_iff.mp skipped
        rfl
    | false => simp
  rw [kept, List.Nodup, List.pairwise_filterMap, List.pairwise_iff_getElem]
  intro first second firstBound secondBound before index taken other otherTaken same
  obtain ⟨event, firstResult⟩ := index?_eq_some_iff.mp taken
  obtain ⟨otherEvent, secondResult⟩ := index?_eq_some_iff.mp otherTaken
  have value := counted first _ index event
    (List.getElem?_eq_some_iff.mpr ⟨firstBound, Prod.ext rfl firstResult⟩)
  have otherValue := counted second _ other otherEvent
    (List.getElem?_eq_some_iff.mpr ⟨secondBound, Prod.ext rfl secondResult⟩)
  rw [same] at value
  omega

namespace Graph

/-- However many evaluators are expanded, skipped or rolled back, and whatever else is wrong with
the graph: a pass that comes to its end has counted each composite once, has taken an index for
each that it has not skipped and none else, has added just the nodes that it counts, and has
reported just the failures.  The indices run up from the base in the order of the composites. -/
theorem compile_accounts {graph : Graph} {registry : RigRegistry} {runtime : RigRuntime}
    {options : PassOptions} {compiled : CompiledGraph}
    (ran : graph.compile registry runtime options = .ok compiled) :
    compiled.Accounts graph options.allocationBase
      (graph.results registry runtime options) := by
  obtain ⟨final, folded, rfl⟩ := compile_eq_ok ran
  have opened : (PassState.start registry options graph).Books options.allocationBase
      graph.nodes.size .zero := ⟨rfl, IndexAllocator.counts_startingAt _, rfl, rfl⟩
  obtain ⟨reached, books, adds, values⟩ := Environment.books_foldlM opened folded
  have expanded := adds.expanded
  have skipped := adds.skipped
  have failed := adds.failed
  rw [List.countP_map] at expanded skipped failed
  have indices : ∀ place node index event,
      ((graph.results registry runtime options).filter (!·.2.isSkipped))[place]? =
        some (node, .ok (.expanded index event)) →
          index.toNat = options.allocationBase.toNat + place := by
    intro place node index event taken
    rw [values place node index event taken]
    exact congrArg _ (Nat.zero_add _)
  exact {
    reached
    expanded := expanded.trans (Nat.zero_add _)
    skipped := skipped.trans (Nat.zero_add _)
    failed := failed.trans (Nat.zero_add _)
    composites := by
      change graph.composites.length = final.2.expanded + final.2.skipped + final.2.failed
      have counted := Result.countP_eq_length
        ((graph.results registry runtime options).map (·.2))
      rw [List.countP_map, List.countP_map, List.countP_map, List.length_map] at counted
      rw [← reached, List.length_map, expanded, skipped, failed]
      simp only [Tally.zero, Nat.zero_add]
      exact counted.symm
    allocations := books.issued
    nodes := books.nodes
    errors := books.errors
    success := by
      have errors := books.errors
      simp +contextual [CompiledGraph.isSuccess, PassState.stats, MessageLog.hasErrors, errors]
    indices := by
      intro place node index event taken
      have value := indices place node index event taken
      exact ⟨value, value ▸ index.toNat_lt_size⟩
    distinct := Result.nodup_indices indices }

end Graph

namespace CrossedLegs

/-- Both legs are expanded, and their sub-rigs have different indices. -/
theorem compile_accounts_legs :
    ∃ compiled, graph.compile registry (.standard "Rig") .standard = .ok compiled ∧
      compiled.Accounts graph 0 (graph.results registry (.standard "Rig") .standard) := by
  obtain ⟨compiled, ran⟩ := compiles
  exact ⟨compiled, ran, Graph.compile_accounts ran⟩

end CrossedLegs

end RigLowering
