import RigLowering.Graph.Basic

namespace RigLowering

namespace Graph

def corruptUnless (holds : Bool) (defect : GraphDefect) : Except Error Unit :=
  if holds then .ok () else .error (.corruptGraph defect)

def checkNodePlace (node : Node) (index : Nat) : Except Error Unit :=
  corruptUnless (node.id.index = index) (.misplacedNode node.id index)

def checkPinPlace (place : Option Pin) (index : Nat) : Except Error Unit :=
  match place with
  | some pin => corruptUnless (pin.id.index = index) (.misplacedPin pin.id index)
  | none => .ok ()

def checkListedPin (graph : Graph) (node : Node) (id : PinId) : Except Error Unit :=
  match graph.pin? id with
  | none => .error (.corruptGraph (.listedPinMissing node.id id))
  | some pin =>
      corruptUnless (pin.owner = node.id) (.listedPinForeign node.id id pin.owner)

def checkOwner (graph : Graph) (pin : Pin) : Except Error Unit :=
  match graph.node? pin.owner with
  | none => .error (.corruptGraph (.ownerMissing pin.id pin.owner))
  | some owner => corruptUnless (owner.pins.contains pin.id) (.unlisted pin.id pin.owner)

def checkLink (graph : Graph) (pin : Pin) (id : PinId) : Except Error Unit :=
  match graph.pin? id with
  | none => .error (.corruptGraph (.linkDangling pin.id id))
  | some far => do
      corruptUnless (far.links.contains pin.id) (.linkOneSided pin.id id)
      corruptUnless (far.direction ≠ pin.direction ∧ far.owner ≠ pin.owner)
        (.linkIllJoined pin.id id)

/-- Every node and pin stands at the place that its identity names, nodes list just the pins that
they own, and links are listed at both ends and join an input and an output of two nodes. -/
def audit (graph : Graph) : Except Error Unit := do
  graph.nodes.toList.zipIdx.forM fun (node, index) => checkNodePlace node index
  graph.pins.toList.zipIdx.forM fun (place, index) => checkPinPlace place index
  graph.nodes.toList.forM fun node => node.pins.forM (graph.checkListedPin node)
  graph.livePins.forM fun pin => do
    graph.checkOwner pin
    pin.links.forM (graph.checkLink pin)

def auditIf (wanted : Bool) (graph : Graph) : Except Error Unit :=
  if wanted then graph.audit else .ok ()

end Graph

end RigLowering
