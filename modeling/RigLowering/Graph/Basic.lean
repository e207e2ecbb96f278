import RigLowering.Error
import RigLowering.Graph.Journal

namespace RigLowering

/-! A graph of nodes and pins.  A pin that was removed leaves an empty place, so that an identity
never comes to mean another pin. -/

structure UndoLog where
  nodes : Journal Node
  pins : Journal (Option Pin)
  hierarchy : Option ClassHierarchy

structure Graph where
  name : String
  parentClass : Option String
  nodes : Array Node
  pins : Array (Option Pin)
  hierarchy : ClassHierarchy
  undo : Option UndoLog

namespace Graph

def empty (name : String) (parentClass : Option String) : Graph :=
  ⟨name, parentClass, #[], #[], .empty, none⟩

def node? (graph : Graph) (id : NodeId) : Option Node :=
  graph.nodes[id.index]?

def pin? (graph : Graph) (id : PinId) : Option Pin :=
  graph.pins[id.index]?.join

def node (graph : Graph) (id : NodeId) : Except Error Node :=
  match graph.node? id with
  | some node => .ok node
  | none => .error (.nodeNotFound id)

def pin (graph : Graph) (id : PinId) : Except Error Pin :=
  match graph.pin? id with
  | some pin => .ok pin
  | none => .error (.pinNotFound id)

def livePins (graph : Graph) : List Pin :=
  graph.pins.toList.filterMap id

def pinsOf (graph : Graph) (node : NodeId) : Except Error (List Pin) := do
  (← graph.node node).pins.mapM graph.pin

/-- The first of the listed pins that has the name and, where one is given, the direction. -/
def findPinAmong (graph : Graph) (name : String) (direction : Option PinDirection) :
    List PinId → Except Error (Option PinId)
  | [] => .ok none
  | id :: rest => do
      let pin ← graph.pin id
      if pin.name = name ∧ direction.all (· = pin.direction) then return some id
      else graph.findPinAmong name direction rest

def findPin? (graph : Graph) (node : NodeId) (name : String) (direction : Option PinDirection) :
    Except Error (Option PinId) := do
  graph.findPinAmong name direction (← graph.node node).pins

def findPin (graph : Graph) (node : NodeId) (name : String) (direction : Option PinDirection) :
    Except Error PinId := do
  match ← graph.findPin? node name direction with
  | some pin => return pin
  | none => throw (.missingPin node name)

def pinsToward (graph : Graph) (node : NodeId) (direction : PinDirection) :
    Except Error (List PinId) := do
  let listed ← (← graph.node node).pins.mapM fun id => return (id, ← graph.pin id)
  return (listed.filter (·.2.direction = direction)).map (·.1)

def settings (graph : Graph) (node : NodeId) : Except Error EvaluatorSettings := do
  match (← graph.node node).kind.settings? with
  | some settings => return settings
  | none => throw (.notComposite node)

/-- The nodes that expanding `source` has made, in the order of their making. -/
def spawnedBy (graph : Graph) (source : NodeId) : List NodeId :=
  (graph.nodes.toList.filter (·.spawnedBy = some source)).map (·.id)

def composites (graph : Graph) : List NodeId :=
  (graph.nodes.toList.filter (·.kind.isComposite)).map (·.id)

def total (counts : List Nat) : Nat :=
  counts.foldr (· + ·) 0

def linkCount (graph : Graph) : Nat :=
  total (graph.livePins.map (·.links.length)) / 2

def nodeLinkCount (graph : Graph) (node : NodeId) : Except Error Nat := do
  return total ((← graph.pinsOf node).map (·.links.length))

def summary (graph : Graph) (pin : Pin) : PinSummary :=
  ⟨pin.name, pin.owner, (graph.node? pin.owner).map (·.kind.label), pin.pinType⟩

end Graph

end RigLowering
