import RigLowering.NameMap

namespace RigLowering

structure ClassHierarchy where
  parents : NameMap String
  deriving DecidableEq

namespace ClassHierarchy

def empty : ClassHierarchy := ⟨.empty⟩

instance : Inhabited ClassHierarchy := ⟨empty⟩

def parent? (hierarchy : ClassHierarchy) (name : String) : Option String :=
  hierarchy.parents.find? name

def size (hierarchy : ClassHierarchy) : Nat :=
  hierarchy.parents.size

def register (hierarchy : ClassHierarchy) (name parent : String) : ClassHierarchy :=
  ⟨hierarchy.parents.insert name parent⟩

/-- A class that has a parent in both hierarchies keeps the one it has in the first. -/
def merge (hierarchy other : ClassHierarchy) : ClassHierarchy :=
  ⟨hierarchy.parents.merge other.parents⟩

/-- The class and what lies above it, at most `limit` names. -/
def climb (hierarchy : ClassHierarchy) : Nat → String → List String
  | 0, _ => []
  | limit + 1, name =>
      name :: match hierarchy.parent? name with
        | none => []
        | some parent => climb hierarchy limit parent

/-- The class and its ancestors, nearest first.  Where parents form a cycle the walk ends once it
has been through every entry. -/
def lineage (hierarchy : ClassHierarchy) (name : String) : List String :=
  hierarchy.climb (hierarchy.size + 1) name

/-- Whether `name` is `ancestor` or derives from it. -/
def derivesFrom (hierarchy : ClassHierarchy) (name ancestor : String) : Bool :=
  (hierarchy.lineage name).contains ancestor

@[simp] theorem climb_zero (hierarchy : ClassHierarchy) (name : String) :
    hierarchy.climb 0 name = [] := rfl

theorem lineage_eq_cons (hierarchy : ClassHierarchy) (name : String) :
    hierarchy.lineage name = name :: (hierarchy.lineage name).tail := rfl

@[simp] theorem derivesFrom_self (hierarchy : ClassHierarchy) (name : String) :
    hierarchy.derivesFrom name name = true := by
  rw [derivesFrom, lineage_eq_cons]
  simp

@[simp] theorem parent?_register (hierarchy : ClassHierarchy) (name other parent : String) :
    (hierarchy.register name parent).parent? other =
      if name = other then some parent else hierarchy.parent? other :=
  NameMap.find?_insert ..

end ClassHierarchy

end RigLowering
