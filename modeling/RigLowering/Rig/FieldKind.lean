import RigLowering.PinType

namespace RigLowering

/-- How the values of a field are handed over. -/
inductive FieldKind
  | scalar
  | struct
  | array
  | delegate
  deriving DecidableEq, Repr

namespace FieldKind

def title : FieldKind → String
  | .scalar => "Scalar"
  | .struct => "Struct"
  | .array => "Array"
  | .delegate => "Delegate"

end FieldKind

namespace PinType

/-- The kind of field that values of the type make. -/
def fieldKind (pinType : PinType) : FieldKind :=
  match pinType.container, pinType.category with
  | .array, _ => .array
  | _, .struct => .struct
  | _, .delegate => .delegate
  | _, _ => .scalar

end PinType

end RigLowering
