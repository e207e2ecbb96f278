import RigLowering.Proofs.Composition
import RigLowering.Proofs.Rollback

namespace RigLowering

/-! A pass that keeps no undo log.  It holds on to a copy of the graph and of the count of spawned
nodes for each composite, and goes back to the copy where the expansion is spoilt. -/

namespace PassState

def revertTo (state copy : PassState) : PassState :=
  { state with graph := copy.graph, spawned := copy.spawned }

end PassState

namespace Environment

def compileNodeByCopy (env : Environment) (progress : PassState × Tally) (node : NodeId) :
    Except Error (PassState × Tally) :=
  match (env.expandNode node).run progress.1 with
  | (.ok outcome, state) => .ok (state, progress.2.count outcome)
  | (.error error, state) =>
      if error.isRecoverable then
        .ok ((state.revertTo progress.1).report .error (some node) error.message,
          progress.2.countFailure)
      else .error (.aborted node error)

end Environment

namespace Graph

def compileByCopy (graph : Graph) (registry : RigRegistry) (runtime : RigRuntime)
    (options : PassOptions) : Except Error CompiledGraph := do
  graph.auditIf options.audited
  let env ← Environment.of registry runtime
  let start := PassState.start registry options graph
  let composites := start.graph.composites
  let (state, tally) ← composites.foldlM env.compileNodeByCopy (start, .zero)
  state.graph.auditIf options.audited
  return ⟨state.graph, state.log, state.stats composites.length tally⟩

end Graph

namespace Edit

theorem commutes_query {α : Type} {answer : Graph → Except Error α} (steady : Steady answer) :
    Commutes Graph.commit (query answer) :=
  fun graph => congrArg (·, graph.commit) (steady graph)

theorem modifyNode_commutes (id : NodeId) (change : Node → Node) :
    Commutes Graph.commit (modifyNode id change) :=
  (commutes_query fun _ => rfl).bind fun _ _ => rfl

theorem modifyPin_commutes (id : PinId) (change : Pin → Pin) :
    Commutes Graph.commit (modifyPin id change) :=
  (commutes_query fun _ => rfl).bind fun _ _ => rfl

theorem addPin_commutes (node : NodeId) (direction : PinDirection) (pinType : PinType)
    (name : String) : Commutes Graph.commit (addPin node direction pinType name) := by
  refine (commutes_query (Graph.steady_findPin? _ _ _)).bind fun found => ?_
  cases found with
  | some pin => exact fun _ => rfl
  | none =>
      let push : Edit PinId := do
        let id : PinId := ⟨(← get).pins.size⟩
        modify fun graph =>
          { graph with
            pins := graph.pins.push (some ⟨id, node, name, direction, pinType, none, none, []⟩) }
        return id
      have pushed : Commutes Graph.commit push := fun _ => rfl
      change Commutes Graph.commit (push >>= fun id => do modifyNode node (·.listPin id); return id)
      exact pushed.bind fun id => (modifyNode_commutes _ _).bind fun _ => commutes_pure _

theorem Composed.commutes {α : Type} {edit : Edit α} (composed : edit.Composed) :
    Commutes Graph.commit edit := by
  induction composed with
  | query steady => exact commutes_query steady
  | spawnNode kind source =>
      have added : Commutes Graph.commit (addNode kind) := fun _ => rfl
      exact (commutes_query fun _ => rfl).bind fun _ => added.bind fun _ =>
        (modifyNode_commutes _ _).bind fun _ => commutes_pure _
  | changeSettings node change => exact modifyNode_commutes _ _
  | addPin node direction pinType name => exact addPin_commutes _ _ _ _
  | changeLiterals pin value object => exact modifyPin_commutes _ _
  | link a b =>
      refine (commutes_query fun _ => rfl).bind fun _ => (commutes_query fun _ => rfl).bind
        fun pin => ?_
      split
      · exact commutes_pure _
      · exact (modifyPin_commutes _ _).bind fun _ => modifyPin_commutes _ _
  | unlink a b => exact (modifyPin_commutes _ _).bind fun _ => modifyPin_commutes _ _
  | unlinkPin pin =>
      exact (commutes_query fun _ => rfl).bind fun _ => (modifyPin_commutes _ _).bind fun _ =>
        Commutes.forM (fun _ => modifyPin_commutes _ _) _
  | bind _ _ first next => exact first.bind next

theorem Composed.recalls {α : Type} {edit : Edit α} (composed : edit.Composed)
    {original : Graph} : Keeps original.Recalls edit := by
  induction composed with
  | query steady => exact keeps_query _
  | spawnNode kind source =>
      exact (keeps_query _).bind fun _ => (addNode_recalls _).bind fun _ =>
        (modifyNode_recalls _ _).bind fun _ => keeps_pure _
  | changeSettings node change => exact modifyNode_recalls _ _
  | addPin node direction pinType name => exact addPin_recalls _ _ _ _
  | changeLiterals pin value object => exact modifyPin_recalls _ _
  | link a b => exact keeps_link modifyPin_recalls _ _
  | unlink a b => exact keeps_unlink modifyPin_recalls _ _
  | unlinkPin pin => exact keeps_unlinkPin modifyPin_recalls _
  | bind _ _ first next => exact first.bind next

end Edit

namespace PassState

/-- The state without what only a rollback looks at. -/
def settled (state : PassState) : PassState :=
  { state with graph := state.graph.commit, spawnedAtCheckpoint := 0 }

/-- A rollback of `current` gives back the graph and the count of `original`. -/
structure Recalls (original current : PassState) : Prop where
  graph : original.graph.Recalls current.graph
  spawned : current.spawnedAtCheckpoint = original.spawned

theorem recalls_checkpoint (state : PassState) : state.Recalls state.checkpoint :=
  ⟨state.graph.recalls_checkpoint, rfl⟩

theorem settled_checkpoint (state : PassState) : state.checkpoint.settled = state.settled := rfl

theorem settled_commit (state : PassState) : state.commit.settled = state.settled := rfl

theorem Recalls.rollback_eq {original current : PassState} (recalls : original.Recalls current) :
    current.rollback =
      { current with graph := original.graph.commit, spawned := original.spawned } := by
  simp only [rollback, recalls.graph.rollback_eq, recalls.spawned]

theorem Recalls.rollback_settled {original current : PassState}
    (recalls : original.Recalls current) :
    current.rollback.settled = (current.revertTo original).settled := by
  rw [recalls.rollback_eq]
  rfl

end PassState

namespace Pass

theorem commutes_edit {α : Type} {change : Edit α} (commutes : Commutes Graph.commit change) :
    Commutes PassState.settled (edit change) := by
  intro state
  have changed : change.run state.settled.graph = _ := commutes state.graph
  change (edit change).run _ = _
  rw [run_edit, changed]
  rfl

theorem Composed.commutes {α : Type} {step : Pass α} (composed : step.Composed) :
    Commutes PassState.settled step := by
  induction composed with
  | edit composed => exact commutes_edit composed.commutes
  | @apart _ step apart _ =>
      intro state
      rw [PassState.settled, PassState.settled, apart.graph_eq state]
      exact apart state state.graph.commit 0
  | bind _ _ first next => exact first.bind next

theorem Composed.recalls {α : Type} {step : Pass α} (composed : step.Composed)
    {original : PassState} : Keeps original.Recalls step := by
  induction composed with
  | edit composed =>
      exact fun state recalls => ⟨composed.recalls state.graph recalls.graph, recalls.spawned⟩
  | apart apart =>
      intro state recalls
      refine ⟨?_, ?_⟩
      · rw [apart.graph_eq state]
        exact recalls.graph
      · rw [apart.spawnedAtCheckpoint_eq state]
        exact recalls.spawned
  | bind _ _ first next => exact first.bind next

end Pass

namespace Environment

variable {env : Environment} {progress next : PassState × Tally} {node : NodeId}

/-- The composite has either been expanded or skipped, or it has failed and its expansion is
undone. -/
theorem compileNode_eq_ok (ran : env.compileNode progress node = .ok next) :
    (∃ outcome after, env.expandNode node progress.1.checkpoint = (.ok outcome, after) ∧
        next = (after.commit, progress.2.count outcome)) ∨
      ∃ error after, env.expandNode node progress.1.checkpoint = (.error error, after) ∧
        error.isRecoverable ∧
        next = ({ after with
            graph := progress.1.graph.commit, spawned := progress.1.spawned
            log := after.log.push ⟨.error, some node, error.message⟩ },
          progress.2.countFailure) := by
  have recalls := (Pass.Composed.expandNode env node).recalls progress.1.checkpoint
    progress.1.recalls_checkpoint
  unfold compileNode Pass.run at ran
  cases run : env.expandNode node progress.1.checkpoint with
  | mk result after =>
      rw [run] at ran recalls
      cases result with
      | ok outcome =>
          cases ran
          exact .inl ⟨outcome, after, rfl, rfl⟩
      | error error =>
          simp only at ran
          split at ran
          · next recoverable =>
              cases ran
              refine .inr ⟨error, after, rfl, recoverable, ?_⟩
              rw [recalls.rollback_eq]
              rfl
          · cases ran

/-- Where a composite ends the pass, it is named in the error. -/
theorem compileNode_eq_error {error : Error}
    (failed : env.compileNode progress node = .error error) :
    ∃ cause after, error = .aborted node cause ∧
      env.expandNode node progress.1.checkpoint = (.error cause, after) := by
  unfold compileNode at failed
  split at failed
  · cases failed
  · next cause after expanding =>
      split at failed
      · cases failed
      · cases failed
        exact ⟨cause, after, rfl, expanding⟩

theorem compileNode_fullCompile (ran : env.compileNode progress node = .ok next) :
    next.1.fullCompile = progress.1.fullCompile := by
  have kept := (Pass.Composed.expandNode env node).keeps_fullCompile progress.1.checkpoint rfl
  rcases compileNode_eq_ok ran with ⟨_, after, run, rfl⟩ | ⟨_, after, run, _, rfl⟩
  · rw [run] at kept
    exact kept
  · rw [run] at kept
    exact kept

end Environment

/-- Two computations that agree in a view of their results go on agreeing. -/
private theorem map_bind_congr {α β γ δ : Type} {view : α → γ} {result : β → δ}
    {first second : Except Error α} {next other : α → Except Error β}
    (same : first.map view = second.map view)
    (nextSame : ∀ a b, view a = view b → (next a).map result = (other b).map result) :
    (first >>= next).map result = (second >>= other).map result := by
  cases first with
  | error error =>
      cases second with
      | error other =>
          cases same
          rfl
      | ok b => cases same
  | ok a =>
      cases second with
      | error error => cases same
      | ok b => exact nextSame a b (Except.ok.inj same)

namespace PassState

theorem settled_report (severity : Severity) (node : Option NodeId) (message : String)
    (state : PassState) :
    (state.report severity node message).settled = state.settled.report severity node message :=
  rfl

theorem settled_revertTo_congr {state other copy otherCopy : PassState}
    (sameState : state.settled = other.settled) (sameCopy : copy.settled = otherCopy.settled) :
    (state.revertTo copy).settled = (other.revertTo otherCopy).settled := by
  have settledFirst (state copy : PassState) :
      (state.revertTo copy).settled = (state.settled.revertTo copy.settled).settled := rfl
  rw [settledFirst, sameState, sameCopy, ← settledFirst]

end PassState

namespace Environment

def settleProgress (progress : PassState × Tally) : PassState × Tally :=
  (progress.1.settled, progress.2)

theorem compileNode_settled (env : Environment) {progress copied : PassState × Tally}
    (node : NodeId) (same : settleProgress progress = settleProgress copied) :
    (env.compileNode progress node).map settleProgress =
      (env.compileNodeByCopy copied node).map settleProgress := by
  have composed := Pass.Composed.expandNode env node
  obtain ⟨sameState, sameTally⟩ := Prod.ext_iff.mp same
  change progress.1.settled = copied.1.settled at sameState
  change progress.2 = copied.2 at sameTally
  have sameRun := composed.commutes progress.1.checkpoint
  rw [PassState.settled_checkpoint, sameState, composed.commutes copied.1] at sameRun
  have recalls := composed.recalls progress.1.checkpoint progress.1.recalls_checkpoint
  unfold compileNode compileNodeByCopy Pass.run
  cases loggedRun : env.expandNode node progress.1.checkpoint with
  | mk result logged =>
      cases copiedRun : env.expandNode node copied.1 with
      | mk copiedResult unlogged =>
          rw [loggedRun, copiedRun] at sameRun
          rw [loggedRun] at recalls
          obtain ⟨rfl, sameAfter⟩ := Prod.ext_iff.mp sameRun
          change unlogged.settled = logged.settled at sameAfter
          cases copiedResult with
          | ok outcome =>
              simp only [Except.map, settleProgress, PassState.settled_commit, sameAfter,
                sameTally]
          | error error =>
              simp only
              split
              · simp only [Except.map, settleProgress, PassState.settled_report,
                  recalls.rollback_settled, sameTally,
                  PassState.settled_revertTo_congr sameAfter.symm sameState]
              · rfl

theorem foldlM_compileNode_settled (env : Environment) (nodes : List NodeId)
    {progress copied : PassState × Tally} (same : settleProgress progress = settleProgress copied) :
    (nodes.foldlM env.compileNode progress).map settleProgress =
      (nodes.foldlM env.compileNodeByCopy copied).map settleProgress := by
  induction nodes generalizing progress copied with
  | nil => exact congrArg Except.ok same
  | cons node rest ih =>
      rw [List.foldlM_cons, List.foldlM_cons]
      exact map_bind_congr (env.compileNode_settled node same) fun _ _ => ih

end Environment

namespace PassState

def finish (options : PassOptions) (composites : Nat) (progress : PassState × Tally) :
    Except Error CompiledGraph := do
  progress.1.graph.auditIf options.audited
  return ⟨progress.1.graph, progress.1.log, progress.1.stats composites progress.2⟩

end PassState

namespace CompiledGraph

/-- The graph, the log and the counts, without what is being recorded. -/
def settled (compiled : CompiledGraph) : CompiledGraph :=
  { compiled with graph := compiled.graph.commit }

end CompiledGraph

namespace Graph

theorem steady_auditIf (wanted : Bool) : Steady (Graph.auditIf wanted) :=
  fun _ => rfl

theorem finish_settled (options : PassOptions) (composites : Nat)
    (progress : PassState × Tally) :
    ((PassState.finish options composites progress).map CompiledGraph.settled) =
      (PassState.finish options composites (Environment.settleProgress progress)).map
        CompiledGraph.settled := by
  unfold PassState.finish
  change Except.map _ (Except.bind (auditIf _ _) _) =
    Except.map _ (Except.bind (auditIf _ progress.1.graph.commit) _)
  rw [steady_auditIf]
  cases auditIf options.audited progress.1.graph <;> rfl

/-- Undoing by the log comes to the same as going back to a copy of the whole graph: the same
error, or the same graph, log and counts. -/
theorem compile_eq_compileByCopy (graph : Graph) (registry : RigRegistry) (runtime : RigRuntime)
    (options : PassOptions) :
    (graph.compile registry runtime options).map CompiledGraph.settled =
      (graph.compileByCopy registry runtime options).map CompiledGraph.settled := by
  unfold compile compileByCopy
  cases graph.auditIf options.audited with
  | error error => rfl
  | ok _ =>
      cases Environment.of registry runtime with
      | error error => rfl
      | ok env =>
          let start := PassState.start registry options graph
          let composites := start.graph.composites
          change (composites.foldlM env.compileNode (start, .zero) >>=
              PassState.finish options composites.length).map _ =
            (composites.foldlM env.compileNodeByCopy (start, .zero) >>=
              PassState.finish options composites.length).map _
          refine map_bind_congr (env.foldlM_compileNode_settled composites rfl) ?_
          intro logged copied same
          rw [finish_settled, same, ← finish_settled]

end Graph

end RigLowering
