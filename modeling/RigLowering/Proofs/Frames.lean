import RigLowering.Graph.Links
import RigLowering.Proofs.Steps

namespace RigLowering

/-! What stays with a pin for as long as it lives. -/

structure PinFace where
  id : PinId
  owner : NodeId
  name : String
  direction : PinDirection
  pinType : PinType

namespace Pin

def face (pin : Pin) : PinFace :=
  ⟨pin.id, pin.owner, pin.name, pin.direction, pin.pinType⟩

end Pin

namespace Graph

def face? (graph : Graph) (id : PinId) : Option PinFace :=
  (graph.pin? id).map Pin.face

/-- A pin that is not there has no links. -/
def links (graph : Graph) (id : PinId) : List PinId :=
  ((graph.pin? id).map Pin.links).getD []

theorem node_eq_ok_iff {graph : Graph} {id : NodeId} {node : Node} :
    graph.node id = .ok node ↔ graph.node? id = some node := by
  unfold Graph.node
  cases graph.node? id <;> simp

theorem pin_eq_ok_iff {graph : Graph} {id : PinId} {pin : Pin} :
    graph.pin id = .ok pin ↔ graph.pin? id = some pin := by
  unfold Graph.pin
  cases graph.pin? id <;> simp

theorem face?_of_pin? {graph : Graph} {id : PinId} {pin : Pin} (found : graph.pin? id = some pin) :
    graph.face? id = some pin.face := by
  simp [face?, found]

theorem links_of_pin? {graph : Graph} {id : PinId} {pin : Pin} (found : graph.pin? id = some pin) :
    graph.links id = pin.links := by
  simp [links, found]

theorem exists_pin?_of_face? {graph : Graph} {id : PinId} {face : PinFace}
    (found : graph.face? id = some face) :
    ∃ pin, graph.pin? id = some pin ∧ pin.face = face ∧ pin.links = graph.links id := by
  obtain ⟨pin, live, same⟩ := Option.map_eq_some_iff.mp found
  exact ⟨pin, live, same, (links_of_pin? live).symm⟩

theorem face?_isSome_of_mem_links {graph : Graph} {id far : PinId} (member : far ∈ graph.links id) :
    ∃ face, graph.face? id = some face := by
  cases found : graph.pin? id with
  | none => simp [links, found] at member
  | some pin => exact ⟨pin.face, face?_of_pin? found⟩

theorem lt_size_of_node? {graph : Graph} {id : NodeId} {node : Node}
    (found : graph.node? id = some node) : id.index < graph.nodes.size :=
  (Array.getElem?_eq_some_iff.mp found).1

theorem lt_size_of_face? {graph : Graph} {id : PinId} {face : PinFace}
    (found : graph.face? id = some face) : id.index < graph.pins.size := by
  obtain ⟨pin, live, _⟩ := exists_pin?_of_face? found
  exact (Array.getElem?_eq_some_iff.mp (Option.join_eq_some_iff.mp live)).1

def changeNode (graph : Graph) (id : NodeId) (change : Node → Node) : Graph :=
  { graph.recordNode id with nodes := graph.nodes.modify id.index change }

def changePin (graph : Graph) (id : PinId) (change : Pin → Pin) : Graph :=
  { graph.recordPin id with pins := graph.pins.modify id.index (·.map change) }

theorem node?_changeNode (graph : Graph) (id other : NodeId) (change : Node → Node) :
    (graph.changeNode id change).node? other =
      if id = other then (graph.node? other).map change else graph.node? other := by
  unfold node?
  rw [show (graph.changeNode id change).nodes = graph.nodes.modify id.index change from rfl,
    Array.getElem?_modify]
  by_cases same : id = other
  · subst same
    rw [if_pos rfl, if_pos rfl]
  · rw [if_neg same, if_neg fun index => same (by cases id; cases other; simpa using index)]

theorem pin?_changePin (graph : Graph) (id other : PinId) (change : Pin → Pin) :
    (graph.changePin id change).pin? other =
      if id = other then (graph.pin? other).map change else graph.pin? other := by
  unfold pin?
  rw [show (graph.changePin id change).pins = graph.pins.modify id.index (·.map change) from rfl,
    Array.getElem?_modify]
  by_cases same : id = other
  · subst same
    rw [if_pos rfl, if_pos rfl]
    rcases graph.pins[id.index]? with _ | _ | _ <;> rfl
  · rw [if_neg same, if_neg fun index => same (by cases id; cases other; simpa using index)]

theorem face?_changePin (graph : Graph) (id other : PinId) {change : Pin → Pin}
    (keeps : ∀ pin, (change pin).face = pin.face) :
    (graph.changePin id change).face? other = graph.face? other := by
  unfold face?
  rw [pin?_changePin]
  split
  · rw [Option.map_map]
    congr 1
    funext pin
    exact keeps pin
  · rfl

theorem links_changePin_of_ne (graph : Graph) {id other : PinId} (change : Pin → Pin)
    (different : id ≠ other) : (graph.changePin id change).links other = graph.links other := by
  unfold links
  rw [pin?_changePin, if_neg different]

theorem links_changePin_self {graph : Graph} {id : PinId} {pin : Pin} (change : Pin → Pin)
    (found : graph.pin? id = some pin) :
    (graph.changePin id change).links id = (change pin).links := by
  simp [links, pin?_changePin, found]

end Graph

namespace Edit

theorem query_apply {α : Type} (answer : Graph → Except Error α) (graph : Graph) :
    query answer graph = (answer graph, graph) :=
  rfl

theorem node_apply (id : NodeId) (graph : Graph) : node id graph = (graph.node id, graph) :=
  rfl

theorem pin_apply (id : PinId) (graph : Graph) : pin id graph = (graph.pin id, graph) :=
  rfl

theorem modifyNode_apply (id : NodeId) (change : Node → Node) (graph : Graph) :
    modifyNode id change graph =
      match graph.node? id with
      | some _ => (.ok (), graph.changeNode id change)
      | none => (.error (.nodeNotFound id), graph) := by
  unfold modifyNode
  rw [bind_apply, node_apply, Graph.node]
  cases graph.node? id <;> rfl

theorem modifyPin_apply (id : PinId) (change : Pin → Pin) (graph : Graph) :
    modifyPin id change graph =
      match graph.pin? id with
      | some _ => (.ok (), graph.changePin id change)
      | none => (.error (.pinNotFound id), graph) := by
  unfold modifyPin
  rw [bind_apply, pin_apply, Graph.pin]
  cases graph.pin? id <;> rfl

end Edit

end RigLowering
