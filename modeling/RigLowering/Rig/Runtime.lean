import RigLowering.Error

namespace RigLowering

structure FunctionParameter where
  name : String
  pinType : PinType
  deriving DecidableEq, Repr

structure FunctionSignature where
  name : String
  parameters : List FunctionParameter
  returnType : Option PinType
  deriving DecidableEq, Repr

namespace FunctionSignature

def parameter? (function : FunctionSignature) (name : String) : Option FunctionParameter :=
  function.parameters.find? (·.name = name)

end FunctionSignature

structure RuntimeTable where
  base : String
  functions : List FunctionSignature
  delegates : List String
  deriving DecidableEq, Repr

/-! What the expansion of an evaluator calls: allocation of a sub-rig, its evaluation, and its
evaluation after an event has gathered the inputs. -/

structure RigRuntime where
  base : String
  allocate : FunctionSignature
  evaluate : FunctionSignature
  evaluateWithInputs : FunctionSignature
  gatherSignature : String
  deriving DecidableEq, Repr

namespace RuntimeName

def allocate : String := "GetOrAllocateSubRig"

def evaluate : String := "EvaluateRig"

def evaluateWithInputs : String := "EvaluateRigWithInputs"

def gatherSignature : String := "PreEvaluateGatherInputs__DelegateSignature"

def allocationIndex : String := "AllocationIndex"

def rigClass : String := "RigClass"

def target : String := "Target"

def preEvaluate : String := "PreEvaluate"

end RuntimeName

namespace StandardFunction

def allocate (base : String) : FunctionSignature :=
  ⟨RuntimeName.allocate,
    [⟨RuntimeName.allocationIndex, .int⟩, ⟨RuntimeName.rigClass, .classOf base⟩],
    some (.object base)⟩

def evaluate (base : String) : FunctionSignature :=
  ⟨RuntimeName.evaluate, [⟨RuntimeName.target, .object base⟩], some (.object base)⟩

def evaluateWithInputs (base : String) : FunctionSignature :=
  ⟨RuntimeName.evaluateWithInputs,
    [⟨RuntimeName.target, .object base⟩,
      ⟨RuntimeName.preEvaluate, .delegate RuntimeName.gatherSignature⟩],
    some (.object base)⟩

end StandardFunction

namespace RuntimeTable

def standard (base : String) : RuntimeTable :=
  ⟨base,
    [StandardFunction.allocate base, StandardFunction.evaluate base,
      StandardFunction.evaluateWithInputs base],
    [RuntimeName.gatherSignature]⟩

def function (table : RuntimeTable) (name : String) : Except Error FunctionSignature :=
  match table.functions.find? (·.name = name) with
  | some function => .ok function
  | none => .error (.missingFunction name)

def expectDelegate (table : RuntimeTable) (signature : String) : Except Error Unit :=
  if table.delegates.contains signature then .ok ()
  else .error (.missingFunction signature)

end RuntimeTable

namespace PinType

def isObjectOf (base : String) (pinType : PinType) : Bool :=
  pinType.category = .object && pinType.referent = some base

def isDelegateOf (signature : String) (pinType : PinType) : Bool :=
  pinType.category = .delegate && pinType.referent = some signature

end PinType

namespace FunctionSignature

def expectParameter (function : FunctionSignature) (name : String) (accepts : PinType → Bool) :
    Except Error Unit :=
  match function.parameter? name with
  | none => .error (.invalidSignature function.name (.missingParameter name))
  | some parameter =>
      if accepts parameter.pinType then .ok ()
      else .error (.invalidSignature function.name (.parameterType name parameter.pinType))

def expectReturn (function : FunctionSignature) (base : String) : Except Error Unit :=
  match function.returnType with
  | none => .error (.invalidSignature function.name .noReturnValue)
  | some found =>
      if found.isObjectOf base then .ok ()
      else .error (.invalidSignature function.name (.returnType found base))

end FunctionSignature

namespace RigRuntime

/-- The functions of the table, once their parameters and results are as a call needs them. -/
def ofTable (table : RuntimeTable) : Except Error RigRuntime := do
  table.expectDelegate RuntimeName.gatherSignature
  let allocate ← table.function RuntimeName.allocate
  allocate.expectParameter RuntimeName.allocationIndex (·.category = .int)
  allocate.expectParameter RuntimeName.rigClass (·.category = .classRef)
  allocate.expectReturn table.base
  let evaluate ← table.function RuntimeName.evaluate
  evaluate.expectParameter RuntimeName.target (·.isObjectOf table.base)
  evaluate.expectReturn table.base
  let evaluateWithInputs ← table.function RuntimeName.evaluateWithInputs
  evaluateWithInputs.expectParameter RuntimeName.target (·.isObjectOf table.base)
  evaluateWithInputs.expectParameter RuntimeName.preEvaluate
    (·.isDelegateOf RuntimeName.gatherSignature)
  evaluateWithInputs.expectReturn table.base
  return ⟨table.base, allocate, evaluate, evaluateWithInputs, RuntimeName.gatherSignature⟩

/-- The runtime of the standard table. -/
def standard (base : String) : RigRuntime :=
  ⟨base, StandardFunction.allocate base, StandardFunction.evaluate base,
    StandardFunction.evaluateWithInputs base, RuntimeName.gatherSignature⟩

end RigRuntime

end RigLowering
