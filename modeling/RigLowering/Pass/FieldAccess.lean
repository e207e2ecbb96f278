import RigLowering.Pass.Spawn

namespace RigLowering

/-! Lowering of one pin of an evaluator into reads and writes of the field behind it.

  kind      input         output
  scalar    set           get
  struct    set           get, copy
  array     copy, set     get, copy
  delegate  bind          none -/

structure FieldAccess where
  owner : String
  source : NodeId
  external : PinId
  handle : PinId
  /-- The external pin is an output that carries the value itself. -/
  isEventOutput : Bool
  /-- Where execution goes on from.  Reads pass it through. -/
  exec : Option PinId

namespace FieldAccess

def routeValue (access : FieldAccess) (value : PinId) : Pass Unit :=
  if access.isEventOutput then .edit (.link access.external value)
  else .transferPin access.external value

def attachHandle (access : FieldAccess) (node : NodeId) : Pass Unit := do
  let self ← Pass.findPin node PinName.self .input
  Pass.edit (.link access.handle self)

/-- The node runs right after `exec`, and what `exec` used to trigger runs after the node. -/
def spliceExec (exec : Option PinId) (node : NodeId) : Pass (Option PinId) := do
  let execute ← Pass.findPin node PinName.execute .input
  let continuation ← Pass.findPin node PinName.continuation .output
  match exec with
  | none => pure ()
  | some exec =>
      Pass.edit (.transferLinks exec continuation)
      Pass.edit (.link exec execute)
  return some continuation

def writeValue (access : FieldAccess) (field : Field) : Pass (Option PinId) := do
  let setter ← Pass.spawnSetField access.source access.owner field
  let value ← Pass.findPin setter field.name .input
  access.routeValue value
  access.attachHandle setter
  spliceExec access.exec setter

def writeCopy (access : FieldAccess) (field : Field) : Pass (Option PinId) := do
  let copy ← Pass.spawnCopy access.source field.pinType
  let item ← Pass.findPin copy PinName.item .input
  let copied ← Pass.findPin copy PinName.returnValue .output
  access.routeValue item
  let setter ← Pass.spawnSetField access.source access.owner field
  let value ← Pass.findPin setter field.name .input
  Pass.edit (.link copied value)
  access.attachHandle setter
  spliceExec access.exec setter

def writeDelegate (access : FieldAccess) (field : Field) : Pass (Option PinId) := do
  let binder ← Pass.spawnBindField access.source access.owner field
  let delegate ← Pass.findPin binder PinName.delegate .input
  access.routeValue delegate
  access.attachHandle binder
  spliceExec access.exec binder

def readValue (access : FieldAccess) (field : Field) : Pass (Option PinId) := do
  let getter ← Pass.spawnGetField access.source access.owner field
  let value ← Pass.findPin getter field.name .output
  access.attachHandle getter
  Pass.transferPin access.external value
  return access.exec

def readCopy (access : FieldAccess) (field : Field) : Pass (Option PinId) := do
  let getter ← Pass.spawnGetField access.source access.owner field
  let value ← Pass.findPin getter field.name .output
  access.attachHandle getter
  let copy ← Pass.spawnCopy access.source field.pinType
  let item ← Pass.findPin copy PinName.item .input
  let copied ← Pass.findPin copy PinName.returnValue .output
  Pass.edit (.link value item)
  Pass.transferPin access.external copied
  return access.exec

/-- Where the next field goes on from. -/
def expand (access : FieldAccess) (field : Field) : Pass (Option PinId) :=
  match field.direction, field.kind with
  | .input, .scalar | .input, .struct => access.writeValue field
  | .input, .array => access.writeCopy field
  | .input, .delegate => access.writeDelegate field
  | .output, .scalar => access.readValue field
  | .output, .struct | .output, .array => access.readCopy field
  | .output, .delegate => throw (.unsupportedField field.name .delegateOutput)

end FieldAccess

end RigLowering
