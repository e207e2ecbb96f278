import RigLowering.Error

namespace RigLowering

/-- Hands out the indices under which sub-rigs are allocated.  There is no next index once the
last one of thirty-two bits is gone. -/
structure IndexAllocator where
  base : UInt32
  next : Option UInt32
  issued : Nat
  deriving DecidableEq

namespace IndexAllocator

def startingAt (base : UInt32) : IndexAllocator :=
  ⟨base, some base, 0⟩

def successor? (index : UInt32) : Option UInt32 :=
  if index.toNat + 1 < UInt32.size then some (index + 1) else none

def take (allocator : IndexAllocator) : Except Error UInt32 × IndexAllocator :=
  match allocator.next with
  | none => (.error (.indicesExhausted allocator.base allocator.issued), allocator)
  | some index =>
      (.ok index, { allocator with next := successor? index, issued := allocator.issued + 1 })

end IndexAllocator

end RigLowering
