import RigLowering.PinType

namespace RigLowering

/-! Identities are positions in the graph that holds the node or pin. -/

structure NodeId where
  index : Nat
  deriving DecidableEq, Repr

structure PinId where
  index : Nat
  deriving DecidableEq, Repr

instance : ToString NodeId := ⟨fun node => "node#" ++ Nat.repr node.index⟩

instance : ToString PinId := ⟨fun pin => "pin#" ++ Nat.repr pin.index⟩

inductive PinDirection
  | input
  | output
  deriving DecidableEq, Repr

namespace PinDirection

def opposite : PinDirection → PinDirection
  | .input => .output
  | .output => .input

def title : PinDirection → String
  | .input => "Input"
  | .output => "Output"

@[simp] theorem opposite_opposite (direction : PinDirection) :
    direction.opposite.opposite = direction := by
  cases direction <;> rfl

theorem eq_opposite_of_ne {first second : PinDirection} (different : first ≠ second) :
    first = second.opposite := by
  cases first <;> cases second
  · exact (different rfl).elim
  · rfl
  · rfl
  · exact (different rfl).elim

end PinDirection

structure Pin where
  id : PinId
  owner : NodeId
  name : String
  direction : PinDirection
  pinType : PinType
  defaultValue : Option String
  defaultObject : Option String
  links : List PinId
  deriving DecidableEq, Repr

namespace Pin

def isLinked (pin : Pin) : Bool :=
  !pin.links.isEmpty

def link (pin : Pin) (far : PinId) : Pin :=
  { pin with links := pin.links ++ [far] }

/-- Every mention of `far` goes. -/
def unlink (pin : Pin) (far : PinId) : Pin :=
  { pin with links := pin.links.filter (· ≠ far) }

def unlinkAll (pin : Pin) : Pin :=
  { pin with links := [] }

end Pin

end RigLowering
