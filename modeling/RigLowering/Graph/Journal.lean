namespace RigLowering

/-! What an arena held when recording began: its size, and the entries below it that have been
touched since, each as it stood before the first touch. -/

structure Journal (α : Type) where
  size : Nat
  saved : List (Nat × α)

namespace Journal

variable {α : Type}

def start (arena : Array α) : Journal α :=
  ⟨arena.size, []⟩

def holds (journal : Journal α) (index : Nat) : Bool :=
  journal.saved.any (·.1 == index)

/-- Entries that came later, and entries already saved, are left alone. -/
def record (journal : Journal α) (arena : Array α) (index : Nat) : Journal α :=
  if index < journal.size && !journal.holds index then
    match arena[index]? with
    | some entry => { journal with saved := (index, entry) :: journal.saved }
    | none => journal
  else journal

def restore (journal : Journal α) (arena : Array α) : Array α :=
  journal.saved.foldl (fun arena entry => arena.setIfInBounds entry.1 entry.2)
    (arena.take journal.size)

@[simp] theorem restore_start (arena : Array α) : (start arena).restore arena = arena := by
  simp [start, restore]

@[simp] theorem size_record (journal : Journal α) (arena : Array α) (index : Nat) :
    (journal.record arena index).size = journal.size := by
  unfold record
  split
  · split <;> rfl
  · rfl

end Journal

end RigLowering
