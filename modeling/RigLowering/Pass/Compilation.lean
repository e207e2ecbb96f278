import RigLowering.Graph.Audit
import RigLowering.Pass.Expansion

namespace RigLowering

structure PassStats where
  composites : Nat
  expanded : Nat
  skipped : Nat
  failed : Nat
  allocations : Nat
  intermediateNodes : Nat
  deriving DecidableEq, Repr

structure CompiledGraph where
  graph : Graph
  log : MessageLog
  stats : PassStats

namespace CompiledGraph

/-- A graph with failed evaluators is complete but no good for code generation. -/
def isSuccess (compiled : CompiledGraph) : Bool :=
  compiled.stats.failed = 0 && !compiled.log.hasErrors

end CompiledGraph

/-- How many evaluators met each end so far. -/
structure Tally where
  expanded : Nat
  skipped : Nat
  failed : Nat
  deriving DecidableEq, Repr

namespace Tally

def zero : Tally := ⟨0, 0, 0⟩

def count (tally : Tally) : Outcome → Tally
  | .expanded .. => { tally with expanded := tally.expanded + 1 }
  | .skipped _ => { tally with skipped := tally.skipped + 1 }

def countFailure (tally : Tally) : Tally :=
  { tally with failed := tally.failed + 1 }

end Tally

namespace Environment

/-- Expands one composite.  An expansion that a refused link spoils is undone and reported; any
other error ends the pass. -/
def compileNode (env : Environment) (progress : PassState × Tally) (node : NodeId) :
    Except Error (PassState × Tally) :=
  match (env.expandNode node).run progress.1.checkpoint with
  | (.ok outcome, state) => .ok (state.commit, progress.2.count outcome)
  | (.error error, state) =>
      if error.isRecoverable then
        .ok (state.rollback.report .error (some node) error.message, progress.2.countFailure)
      else .error (.aborted node error)

end Environment

namespace PassState

def stats (state : PassState) (composites : Nat) (tally : Tally) : PassStats :=
  ⟨composites, tally.expanded, tally.skipped, tally.failed, state.indices.issued, state.spawned⟩

end PassState

namespace Graph

/-- Expands every evaluator of the graph, in the order in which the graph holds them. -/
def compile (graph : Graph) (registry : RigRegistry) (runtime : RigRuntime)
    (options : PassOptions) : Except Error CompiledGraph := do
  graph.auditIf options.audited
  let env ← Environment.of registry runtime
  let start := PassState.start registry options graph
  let composites := start.graph.composites
  let (state, tally) ← composites.foldlM env.compileNode (start, .zero)
  state.graph.auditIf options.audited
  return ⟨state.graph, state.log, state.stats composites.length tally⟩

end Graph

end RigLowering
