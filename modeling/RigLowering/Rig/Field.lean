import RigLowering.Error
import RigLowering.PinConvention

namespace RigLowering

structure Field where
  name : String
  pinType : PinType
  direction : PinDirection
  kind : FieldKind
  deriving DecidableEq, Repr

namespace Field

/-- The field of the kind that its type makes. -/
def ofType (name : String) (pinType : PinType) (direction : PinDirection) : Field :=
  ⟨name, pinType, direction, pinType.fieldKind⟩

/-- The first reason for which the field cannot be one. -/
def fault? (field : Field) : Option FieldFault :=
  if field.name = "" then some .emptyName
  else if field.name = PinName.rig then some .reservedName
  else if field.pinType.category = .exec ∨ field.pinType.category = .wildcard then some .notAValue
  else if field.pinType.fieldKind ≠ field.kind then
    some (.kindMismatch field.kind field.pinType)
  else if field.kind = .delegate ∧ field.direction = .output then some .delegateOutput
  else if field.pinType.container ≠ .single ∧ field.pinType.container ≠ .array then
    some .containerNotArray
  else none

def check (field : Field) : Except Error Unit :=
  match field.fault? with
  | some fault => .error (.unsupportedField field.name fault)
  | none => .ok ()

end Field

end RigLowering
