import RigLowering.Node
import RigLowering.Rig.FieldKind

namespace RigLowering

inductive LinkFault
  | sameDirection (direction : PinDirection)
  | sameNode (node : NodeId)
  | movedAcrossDirections

inductive GraphDefect
  | misplacedNode (node : NodeId) (index : Nat)
  | misplacedPin (pin : PinId) (index : Nat)
  | listedPinMissing (node : NodeId) (pin : PinId)
  | listedPinForeign (node : NodeId) (pin : PinId) (owner : NodeId)
  | ownerMissing (pin : PinId) (owner : NodeId)
  | unlisted (pin : PinId) (owner : NodeId)
  | linkDangling (pin far : PinId)
  | linkOneSided (pin far : PinId)
  | linkIllJoined (pin far : PinId)

inductive FieldFault
  | emptyName
  | reservedName
  | notAValue
  | kindMismatch (declared : FieldKind) (pinType : PinType)
  | delegateOutput
  | containerNotArray

inductive ClassFault
  | emptyName
  | alreadyRegistered
  | unknownParent (parent : String)
  | repeatedField (field : String)

inductive SignatureFault
  | missingParameter (name : String)
  | parameterType (name : String) (found : PinType)
  | returnType (found : PinType) (base : String)
  | noReturnValue

/-- What an error tells of a pin.  The label of its owner is missing when the owner is. -/
structure PinSummary where
  name : String
  owner : NodeId
  ownerLabel : Option String
  pinType : PinType

inductive Error
  | incompatibleTypes (output input : PinSummary)
  | invalidLink (first second : PinId) (fault : LinkFault)
  | nodeNotFound (node : NodeId)
  | pinNotFound (pin : PinId)
  | missingPin (node : NodeId) (name : String)
  | duplicatePin (node : NodeId) (name : String)
  | missingFunction (name : String)
  | invalidSignature (function : String) (fault : SignatureFault)
  | baseClassMismatch (classes runtime : String)
  | invalidRigClass (name : String) (fault : ClassFault)
  | unsupportedField (field : String) (fault : FieldFault)
  | indicesExhausted (base : UInt32) (issued : Nat)
  | notACast (node : NodeId) (found : NodeKind)
  | notComposite (node : NodeId)
  | corruptGraph (defect : GraphDefect)
  | aborted (node : NodeId) (cause : Error)
  | malformedDocument

namespace LinkFault

def message : LinkFault → String
  | .sameDirection direction => "both pins are " ++ direction.title
  | .sameNode node => s!"both pins belong to {node}"
  | .movedAcrossDirections => "links can only move between pins of the same direction"

end LinkFault

namespace GraphDefect

def message : GraphDefect → String
  | .misplacedNode node index => s!"{node} is stored at node index {index}"
  | .misplacedPin pin index => s!"{pin} is stored at pin index {index}"
  | .listedPinMissing node pin => s!"{node} lists missing {pin}"
  | .listedPinForeign node pin owner => s!"{node} lists {pin} owned by {owner}"
  | .ownerMissing pin owner => s!"{pin} owned by unknown {owner}"
  | .unlisted pin owner => s!"{pin} is not listed by its owner {owner}"
  | .linkDangling pin far => s!"{pin} links to missing {far}"
  | .linkOneSided pin far => s!"link {pin} -> {far} is one-sided"
  | .linkIllJoined pin far => s!"link {pin} -> {far} joins pins of the same direction or node"

end GraphDefect

namespace FieldFault

def message : FieldFault → String
  | .emptyName => "field name is empty"
  | .reservedName => "name is reserved for the evaluator's sub-rig output"
  | .notAValue => "exec and wildcard pins cannot be fields"
  | .kindMismatch declared pinType =>
      s!"declared {declared.title} but the pin type {pinType} implies {pinType.fieldKind.title}"
  | .delegateOutput => "delegate fields are input-only"
  | .containerNotArray => "only array containers are supported"

end FieldFault

namespace ClassFault

def message : ClassFault → String
  | .emptyName => "class name is empty"
  | .alreadyRegistered => "class is already registered"
  | .unknownParent parent => s!"unknown parent class '{parent}'"
  | .repeatedField field => s!"field '{field}' is declared twice"

end ClassFault

namespace SignatureFault

def message : SignatureFault → String
  | .missingParameter name => s!"missing parameter '{name}'"
  | .parameterType name found => s!"parameter '{name}' has unexpected type {found}"
  | .returnType found base => s!"returns {found} instead of object<{base}>"
  | .noReturnValue => "has no return value"

end SignatureFault

namespace PinSummary

def display (pin : PinSummary) : String :=
  match pin.ownerLabel with
  | some label => s!"'{pin.name}' on {pin.owner} ({label})"
  | none => s!"'{pin.name}' on {pin.owner}"

end PinSummary

namespace Error

def message : Error → String
  | .incompatibleTypes output input =>
      s!"incompatible pin types: {output.display} ({output.pinType}) " ++
        s!"cannot feed {input.display} ({input.pinType})"
  | .invalidLink first second fault =>
      s!"invalid link between pins {first} and {second}: {fault.message}"
  | .nodeNotFound node => s!"node not found: {node}"
  | .pinNotFound pin => s!"pin not found: {pin}"
  | .missingPin node name => s!"pin '{name}' not found on node {node}"
  | .duplicatePin node name => s!"pin '{name}' already exists on node {node}"
  | .missingFunction name => s!"rig runtime function not found: {name}"
  | .invalidSignature function fault =>
      s!"rig runtime function '{function}' has an invalid signature: {fault.message}"
  | .baseClassMismatch classes runtime =>
      s!"rig classes derive from '{classes}' but the rig runtime expects '{runtime}'"
  | .invalidRigClass name fault => s!"invalid rig class '{name}': {fault.message}"
  | .unsupportedField field fault => s!"field '{field}' cannot be expanded: {fault.message}"
  | .indicesExhausted base issued =>
      s!"sub-rig allocation indices exhausted ({issued} issued from base {base})"
  | .notACast node found => s!"node {node} is {found.label}, expected a dynamic cast"
  | .notComposite node => s!"node {node} is not a rig evaluator"
  | .corruptGraph defect => s!"graph is corrupt: {defect.message}"
  | .aborted node cause => s!"expansion of node {node} aborted: {cause.message}"
  | .malformedDocument => "the document does not hold the expected record"

/-- A link that is refused spoils the expansion of one node only; any other error ends the pass. -/
def isRecoverable : Error → Bool
  | .incompatibleTypes .. | .invalidLink .. => true
  | _ => false

end Error

end RigLowering
