import RigLowering.Pin

namespace RigLowering

namespace PinName

def execute : String := "execute"

def continuation : String := "then"

def self : String := "self"

def returnValue : String := "ReturnValue"

def castSource : String := "Object"

def castSuccess : String := "Success"

def castFailed : String := "CastFailed"

def outputDelegate : String := "OutputDelegate"

def delegate : String := "Delegate"

def item : String := "Item"

/-- The output of an evaluator that carries the evaluated sub-rig. -/
def rig : String := "Rig"

def castResult (target : String) : String := "As" ++ target

end PinName

/-- One pin of a node that is yet to be made. -/
structure PinSpec where
  direction : PinDirection
  pinType : PinType
  name : String
  deriving DecidableEq, Repr

namespace PinType

def defaultLiteral (pinType : PinType) : Option String :=
  match pinType.container, pinType.category with
  | .single, .boolean => some "false"
  | .single, .int => some "0"
  | .single, .float => some "0.0"
  | .single, .string => some ""
  | .single, .name => some ""
  | _, _ => none

end PinType

namespace Pin

/-- Outputs, and inputs that have a literal, are left alone. -/
def withDefaultLiteral (pin : Pin) : Pin :=
  if pin.direction = .input ∧ pin.defaultValue = none then
    { pin with defaultValue := pin.pinType.defaultLiteral }
  else pin

end Pin

end RigLowering
