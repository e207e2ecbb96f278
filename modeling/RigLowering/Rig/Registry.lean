import RigLowering.Rig.Field

namespace RigLowering

structure RigClass where
  name : String
  parent : String
  fields : List Field
  deriving DecidableEq, Repr

/-! Rig classes below one base class.  Each class has the fields of its ancestors and its own. -/

structure RigRegistry where
  base : String
  classes : NameMap RigClass
  deriving DecidableEq

namespace RigRegistry

def empty (base : String) : RigRegistry := ⟨base, .empty⟩

def find? (registry : RigRegistry) (name : String) : Option RigClass :=
  registry.classes.find? name

def contains (registry : RigRegistry) (name : String) : Bool :=
  registry.classes.contains name

/-- The parent of each registered class. -/
def hierarchy (registry : RigRegistry) : ClassHierarchy :=
  ⟨registry.classes.map (·.parent)⟩

/-- The class and its registered ancestors, nearest first. -/
def lineage (registry : RigRegistry) (name : String) : List RigClass :=
  (registry.hierarchy.lineage name).filterMap registry.find?

/-- The fields of the class, those of its ancestors first. -/
def fieldsOf (registry : RigRegistry) (name : String) : List Field :=
  (registry.lineage name).reverse.flatMap (·.fields)

def enabledFields (registry : RigRegistry) (name : String) (direction : PinDirection)
    (disabled : NameSet) : List Field :=
  (registry.fieldsOf name).filter
    fun field => field.direction = direction && !disabled.contains field.name

def findField? (registry : RigRegistry) (name field : String) (direction : PinDirection) :
    Option Field :=
  (registry.fieldsOf name).find?
    fun candidate => candidate.direction = direction && candidate.name = field

/-- Every field is sound, and no two of one direction share a name. -/
def checkFields (className : String) : List Field → List Field → Except Error Unit
  | _, [] => .ok ()
  | before, field :: rest => do
      field.check
      if before.any fun other => other.direction = field.direction && other.name = field.name then
        throw (.invalidRigClass className (.repeatedField field.name))
      else checkFields className (field :: before) rest

/-- The first reason for which the registry has no place for the class. -/
def placeFault? (registry : RigRegistry) (rigClass : RigClass) : Option ClassFault :=
  if rigClass.name = "" then some .emptyName
  else if rigClass.name = registry.base ∨ registry.contains rigClass.name then
    some .alreadyRegistered
  else if rigClass.parent ≠ registry.base ∧ !registry.contains rigClass.parent then
    some (.unknownParent rigClass.parent)
  else none

def check (registry : RigRegistry) (rigClass : RigClass) : Except Error Unit :=
  match registry.placeFault? rigClass with
  | some fault => .error (.invalidRigClass rigClass.name fault)
  | none =>
      checkFields rigClass.name [] (registry.fieldsOf rigClass.parent ++ rigClass.fields)

def register (registry : RigRegistry) (rigClass : RigClass) : Except Error RigRegistry := do
  registry.check rigClass
  return { registry with classes := registry.classes.insert rigClass.name rigClass }

end RigRegistry

end RigLowering
