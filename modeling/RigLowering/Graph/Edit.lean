import RigLowering.Graph.Basic

namespace RigLowering

namespace Graph

/-! Checkpoints.  While one is open, every entry is recorded before it is touched. -/

def checkpoint (graph : Graph) : Graph :=
  { graph with undo := some ⟨.start graph.nodes, .start graph.pins, none⟩ }

def commit (graph : Graph) : Graph :=
  { graph with undo := none }

/-- The graph as it was at the checkpoint, and whether there was one. -/
def rollback (graph : Graph) : Bool × Graph :=
  match graph.undo with
  | none => (false, graph)
  | some log =>
      (true,
        { graph with
          nodes := log.nodes.restore graph.nodes
          pins := log.pins.restore graph.pins
          hierarchy := log.hierarchy.getD graph.hierarchy
          undo := none })

def recordNode (graph : Graph) (id : NodeId) : Graph :=
  { graph with
    undo := graph.undo.map fun log =>
      { log with nodes := log.nodes.record graph.nodes id.index } }

def recordPin (graph : Graph) (id : PinId) : Graph :=
  { graph with
    undo := graph.undo.map fun log =>
      { log with pins := log.pins.record graph.pins id.index } }

def recordHierarchy (graph : Graph) : Graph :=
  { graph with
    undo := graph.undo.map fun log =>
      { log with hierarchy := some (log.hierarchy.getD graph.hierarchy) } }

def mapHierarchy (change : ClassHierarchy → ClassHierarchy) (graph : Graph) : Graph :=
  let graph := graph.recordHierarchy
  { graph with hierarchy := change graph.hierarchy }

end Graph

/-! An edit may fail part way.  The graph that it leaves is part of its result either way. -/

abbrev Edit := ExceptT Error (StateM Graph)

namespace Edit

def run {α : Type} (edit : Edit α) (graph : Graph) : Except Error α × Graph :=
  edit graph

def query {α : Type} (answer : Graph → Except Error α) : Edit α :=
  fun graph => (answer graph, graph)

@[simp] theorem run_query {α : Type} (answer : Graph → Except Error α) (graph : Graph) :
    (query answer).run graph = (answer graph, graph) := rfl

@[simp] theorem run_pure {α : Type} (value : α) (graph : Graph) :
    (pure value : Edit α).run graph = (.ok value, graph) := rfl

@[simp] theorem run_throw {α : Type} (error : Error) (graph : Graph) :
    (throw error : Edit α).run graph = (.error error, graph) := rfl

def node (id : NodeId) : Edit Node :=
  query (·.node id)

def pin (id : PinId) : Edit Pin :=
  query (·.pin id)

def findPin (node : NodeId) (name : String) (direction : PinDirection) : Edit PinId :=
  query (·.findPin node name (some direction))

def modifyNode (id : NodeId) (change : Node → Node) : Edit Unit := do
  let _ ← node id
  modify fun graph =>
    let graph := graph.recordNode id
    { graph with nodes := graph.nodes.modify id.index change }

def modifyPin (id : PinId) (change : Pin → Pin) : Edit Unit := do
  let _ ← pin id
  modify fun graph =>
    let graph := graph.recordPin id
    { graph with pins := graph.pins.modify id.index (·.map change) }

def modifySettings (id : NodeId) (change : EvaluatorSettings → EvaluatorSettings) :
    Edit Unit := do
  let _ ← query (·.settings id)
  modifyNode id (·.mapSettings change)

def addNode (kind : NodeKind) : Edit NodeId := do
  let id := ⟨(← get).nodes.size⟩
  modify fun graph => { graph with nodes := graph.nodes.push ⟨id, kind, [], none⟩ }
  return id

/-- A node has at most one pin of a name in each direction. -/
def addPin (node : NodeId) (direction : PinDirection) (pinType : PinType) (name : String) :
    Edit PinId := do
  match ← query (·.findPin? node name (some direction)) with
  | some _ => throw (.duplicatePin node name)
  | none =>
      let id := ⟨(← get).pins.size⟩
      modify fun graph =>
        { graph with
          pins := graph.pins.push (some ⟨id, node, name, direction, pinType, none, none, []⟩) }
      modifyNode node (·.listPin id)
      return id

end Edit

end RigLowering
