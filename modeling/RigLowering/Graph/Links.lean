import RigLowering.Graph.Edit

namespace RigLowering

namespace Graph

def checkTypes (graph : Graph) (output input : Pin) : Except Error Unit :=
  if output.pinType.feeds graph.hierarchy input.pinType then .ok ()
  else .error (.incompatibleTypes (graph.summary output) (graph.summary input))

/-- Refuses two pins that cannot be linked, whichever of them is named first. -/
def checkJoin (graph : Graph) (a b : PinId) : Except Error Unit := do
  let first ← graph.pin a
  let second ← graph.pin b
  if first.direction = second.direction then
    throw (.invalidLink a b (.sameDirection first.direction))
  else if first.owner = second.owner then
    throw (.invalidLink a b (.sameNode first.owner))
  else
    match first.direction with
    | .output => graph.checkTypes first second
    | .input => graph.checkTypes second first

end Graph

namespace Edit

/-! A link is listed by both of its pins.  Either one may be named first. -/

def link (a b : PinId) : Edit Unit := do
  query (·.checkJoin a b)
  if b ∈ (← pin a).links then return
  modifyPin a (·.link b)
  modifyPin b (·.link a)

def unlink (a b : PinId) : Edit Unit := do
  modifyPin a (·.unlink b)
  modifyPin b (·.unlink a)

def unlinkPin (id : PinId) : Edit Unit := do
  let farEnds := (← pin id).links
  modifyPin id (·.unlinkAll)
  farEnds.forM fun far => modifyPin far (·.unlink id)

def unlinkNode (id : NodeId) : Edit Unit := do
  (← node id).pins.forM unlinkPin

/-- The far ends stay where they are and come to be linked to `dest`. -/
def transferLinks (origin dest : PinId) : Edit Unit := do
  if origin = dest then return
  let source ← pin origin
  let target ← pin dest
  if source.direction = target.direction then
    source.links.forM fun far => do
      unlink origin far
      link dest far
  else throw (.invalidLink origin dest .movedAcrossDirections)

/-- The pin loses its links and its node, and its place stays empty. -/
def removePin (id : PinId) : Edit Unit := do
  unlinkPin id
  modifyNode (← pin id).owner (·.unlistPin id)
  modify fun graph =>
    let graph := graph.recordPin id
    { graph with pins := graph.pins.setIfInBounds id.index none }

end Edit

end RigLowering
