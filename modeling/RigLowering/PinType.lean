import RigLowering.ClassHierarchy

namespace RigLowering

/-! What a pin carries: a category of values, the struct, class or signature that it refers to,
and the shape in which the values are held. -/

inductive PinCategory
  | exec
  | boolean
  | int
  | float
  | string
  | name
  | struct
  | object
  | classRef
  | delegate
  | wildcard
  deriving DecidableEq, Repr

inductive ContainerShape
  | single
  | array
  | set
  | map
  deriving DecidableEq, Repr

structure PinType where
  category : PinCategory
  referent : Option String
  container : ContainerShape
  deriving DecidableEq, Repr

namespace PinCategory

def display : PinCategory → String
  | .exec => "exec"
  | .boolean => "bool"
  | .int => "int"
  | .float => "float"
  | .string => "string"
  | .name => "name"
  | .struct => "struct"
  | .object => "object"
  | .classRef => "class"
  | .delegate => "delegate"
  | .wildcard => "wildcard"

end PinCategory

namespace PinType

def plain (category : PinCategory) : PinType :=
  ⟨category, none, .single⟩

def referring (category : PinCategory) (referent : String) : PinType :=
  ⟨category, some referent, .single⟩

def exec : PinType := plain .exec

def boolean : PinType := plain .boolean

def int : PinType := plain .int

def float : PinType := plain .float

def string : PinType := plain .string

def name : PinType := plain .name

def wildcard : PinType := plain .wildcard

/-- An object of any class. -/
def anyObject : PinType := plain .object

/-- An object of the class or of one that derives from it. -/
def object (className : String) : PinType := referring .object className

/-- A reference to the class itself or to one that derives from it. -/
def classOf (base : String) : PinType := referring .classRef base

def struct (structName : String) : PinType := referring .struct structName

def delegate (signature : String) : PinType := referring .delegate signature

def arrayOf (element : PinType) : PinType :=
  { element with container := .array }

theorem referring_ne_exec (category : PinCategory) (referent : String) :
    referring category referent ≠ exec := by
  intro same
  cases congrArg PinType.referent same

def isExec (pinType : PinType) : Bool :=
  pinType.category = .exec

def isContainer (pinType : PinType) : Bool :=
  pinType.container ≠ .single

def displayElement (pinType : PinType) : String :=
  match pinType.referent with
  | some referent => pinType.category.display ++ "<" ++ referent ++ ">"
  | none => pinType.category.display

def display (pinType : PinType) : String :=
  match pinType.container with
  | .single => pinType.displayElement
  | .array => "array<" ++ pinType.displayElement ++ ">"
  | .set => "set<" ++ pinType.displayElement ++ ">"
  | .map => "map<" ++ pinType.displayElement ++ ">"

instance : ToString PinType := ⟨display⟩

/-- An open input takes any referent; otherwise the output has to name one that `accepts`. -/
def referentFeeds (accepts : String → String → Bool) : Option String → Option String → Bool
  | _, none => true
  | none, some _ => false
  | some output, some input => accepts output input

/-- Wildcards go with anything.  All else agrees in category and container; objects and classes
may be of a derived class, structs and delegates have to be the same. -/
def feeds (hierarchy : ClassHierarchy) (output input : PinType) : Bool :=
  if output.category = .wildcard ∨ input.category = .wildcard then true
  else if output.container ≠ input.container ∨ output.category ≠ input.category then false
  else
    match output.category with
    | .object | .classRef => referentFeeds hierarchy.derivesFrom output.referent input.referent
    | .struct | .delegate => referentFeeds (· == ·) output.referent input.referent
    | _ => true

end PinType

end RigLowering
