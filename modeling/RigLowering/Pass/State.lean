import RigLowering.EvaluatorPins
import RigLowering.IndexAllocator
import RigLowering.MessageLog

namespace RigLowering

structure PassOptions where
  fullCompile : Bool
  allocationBase : UInt32
  audited : Bool
  deriving DecidableEq

namespace PassOptions

def standard : PassOptions := ⟨true, 0, true⟩

end PassOptions

/-! What one pass works on: the graph, and what it has handed out so far.  Expansions that fail
give back what they did to the graph, but neither the indices nor the function names that they
used up. -/

structure PassState where
  graph : Graph
  indices : IndexAllocator
  log : MessageLog
  fullCompile : Bool
  functionNames : NameSet
  spawned : Nat
  spawnedAtCheckpoint : Nat

namespace PassState

/-- The graph comes to know the rig classes, and the names of its events count as taken. -/
def start (registry : RigRegistry) (options : PassOptions) (graph : Graph) : PassState where
  graph := graph.mapHierarchy (·.merge registry.hierarchy)
  indices := .startingAt options.allocationBase
  log := .empty
  fullCompile := options.fullCompile
  functionNames := .ofNames (graph.nodes.toList.filterMap (·.kind.functionName?))
  spawned := 0
  spawnedAtCheckpoint := 0

def checkpoint (state : PassState) : PassState :=
  { state with graph := state.graph.checkpoint, spawnedAtCheckpoint := state.spawned }

def commit (state : PassState) : PassState :=
  { state with graph := state.graph.commit }

def rollback (state : PassState) : PassState :=
  match state.graph.rollback with
  | (true, graph) => { state with graph, spawned := state.spawnedAtCheckpoint }
  | (false, graph) => { state with graph }

def report (severity : Severity) (node : Option NodeId) (message : String) (state : PassState) :
    PassState :=
  { state with log := state.log.push ⟨severity, node, message⟩ }

end PassState

/-- The name itself, then the name with a number. -/
def nameCandidate (base : String) (suffix : Nat) : String :=
  if suffix = 0 then base else base ++ "_" ++ Nat.repr suffix

/-- The first candidate that is not taken.  There is one among the first `taken.size + 1`, since
they are all different. -/
def uniqueName (taken : NameSet) (base : String) : String :=
  (((List.range (taken.size + 1)).find? fun suffix =>
    !taken.contains (nameCandidate base suffix)).map (nameCandidate base)).getD base

/-- A step of a pass.  Like an edit it leaves a state behind even where it fails. -/
abbrev Pass := ExceptT Error (StateM PassState)

namespace Pass

def run {α : Type} (step : Pass α) (state : PassState) : Except Error α × PassState :=
  step state

def edit {α : Type} (change : Edit α) : Pass α :=
  fun state =>
    let (result, graph) := change.run state.graph
    (result, { state with graph })

def query {α : Type} (answer : Graph → Except Error α) : Pass α :=
  edit (.query answer)

@[simp] theorem run_edit {α : Type} (change : Edit α) (state : PassState) :
    (edit change).run state =
      ((change.run state.graph).1, { state with graph := (change.run state.graph).2 }) := rfl

def findPin (node : NodeId) (name : String) (direction : PinDirection) : Pass PinId :=
  edit (.findPin node name direction)

def warn (node : NodeId) (message : String) : Pass Unit :=
  modify (·.report .warning (some node) message)

def takeIndex : Pass UInt32 :=
  fun state =>
    let (index, indices) := state.indices.take
    (index, { state with indices })

def reserveName (base : String) : Pass String := do
  let name := uniqueName (← get).functionNames base
  modify fun state => { state with functionNames := state.functionNames.add name }
  return name

/-- An input hands its literals over with its links, so that a value that comes over no link still
arrives. -/
def transferPin (origin dest : PinId) : Pass Unit :=
  edit do
    Edit.transferLinks origin dest
    let source ← Edit.pin origin
    if source.direction = .input then
      Edit.modifyPin dest fun pin =>
        { pin with
          defaultValue := source.defaultValue <|> pin.defaultValue
          defaultObject := source.defaultObject <|> pin.defaultObject }

/-- A node that stands for part of what `source` meant. -/
def spawnNode (kind : NodeKind) (source : NodeId) : Pass NodeId := do
  let node ← edit do
    let _ ← Edit.node source
    let node ← Edit.addNode kind
    Edit.modifyNode node fun node => { node with spawnedBy := some source }
    return node
  modify fun state => { state with spawned := state.spawned + 1 }
  return node

def spawnEventNode (signature base : String) (source : NodeId) : Pass NodeId := do
  spawnNode (.event signature (← reserveName base)) source

end Pass

end RigLowering
