import RigLowering.Graph.Journal

namespace RigLowering

namespace Journal

variable {α : Type}

/-- The journal knows enough to turn `current` back into `original`. -/
structure Recalls (journal : Journal α) (original current : Array α) : Prop where
  size : journal.size = original.size
  grown : original.size ≤ current.size
  saved : ∀ entry ∈ journal.saved, original[entry.1]? = some entry.2
  untouched : ∀ index < original.size,
    (∀ entry ∈ journal.saved, entry.1 ≠ index) → current[index]? = original[index]?

theorem recalls_start (arena : Array α) : (start arena).Recalls arena arena where
  size := rfl
  grown := Nat.le_refl _
  saved := by simp [start]
  untouched := fun _ _ _ => rfl

theorem holds_eq_false_iff {journal : Journal α} {index : Nat} :
    journal.holds index = false ↔ ∀ entry ∈ journal.saved, entry.1 ≠ index := by
  simp [holds]

/-- Saved entries go back to their places; the places of all others have to be right already. -/
private theorem foldl_set_eq {original : Array α} (saved : List (Nat × α)) (arena : Array α)
    (size : arena.size = original.size)
    (values : ∀ entry ∈ saved, original[entry.1]? = some entry.2)
    (others : ∀ index, (∀ entry ∈ saved, entry.1 ≠ index) → arena[index]? = original[index]?) :
    saved.foldl (fun arena entry => arena.setIfInBounds entry.1 entry.2) arena = original := by
  induction saved generalizing arena with
  | nil => exact Array.ext_getElem? fun index => others index (by simp)
  | cons entry rest ih =>
      have value := values entry (by simp)
      apply ih
      · simpa using size
      · intro other member
        exact values other (by simp [member])
      · intro index absent
        by_cases same : entry.1 = index
        · subst same
          obtain ⟨bound, _⟩ := Array.getElem?_eq_some_iff.mp value
          rw [value, Array.getElem?_setIfInBounds_self_of_lt (by omega)]
        · rw [Array.getElem?_setIfInBounds_ne same]
          apply others
          intro other member
          rcases List.mem_cons.mp member with rfl | member
          · exact same
          · exact absent other member

theorem Recalls.restore_eq {journal : Journal α} {original current : Array α}
    (recalls : journal.Recalls original current) : journal.restore current = original := by
  have grown := recalls.grown
  apply foldl_set_eq
  · simp only [Array.take_eq_extract, Array.size_extract, recalls.size]
    omega
  · exact recalls.saved
  · intro index absent
    rw [recalls.size, Array.take_eq_extract, Array.getElem?_extract]
    by_cases bound : index < original.size
    · rw [if_pos (by omega), Nat.zero_add]
      exact recalls.untouched index bound absent
    · rw [if_neg (by omega), Array.getElem?_eq_none (by omega)]

theorem Recalls.push {journal : Journal α} {original current : Array α}
    (recalls : journal.Recalls original current) (entry : α) :
    journal.Recalls original (current.push entry) where
  size := recalls.size
  grown := by
    have grown := recalls.grown
    simp only [Array.size_push]
    omega
  saved := recalls.saved
  untouched := by
    intro index bound absent
    have grown := recalls.grown
    rw [Array.getElem?_push_lt (by omega), ← Array.getElem?_eq_getElem]
    exact recalls.untouched index bound absent

theorem Recalls.record {journal : Journal α} {original current changed : Array α} {index : Nat}
    (recalls : journal.Recalls original current) (size : changed.size = current.size)
    (others : ∀ other ≠ index, changed[other]? = current[other]?) :
    (journal.record current index).Recalls original changed := by
  have grown := recalls.grown
  unfold Journal.record
  split
  · next fresh =>
      obtain ⟨bound, unheld⟩ : index < journal.size ∧ journal.holds index = false := by
        simpa using fresh
      have place : index < original.size := recalls.size ▸ bound
      have asBefore : current[index]? = original[index]? :=
        recalls.untouched index place (holds_eq_false_iff.mp unheld)
      split
      · next entry found =>
          refine ⟨recalls.size, by omega, ?_, ?_⟩
          · intro other member
            rcases List.mem_cons.mp member with rfl | member
            · rw [← asBefore, found]
            · exact recalls.saved other member
          · intro other otherBound absent
            rw [others other fun same => absent (index, entry) (by simp) same.symm]
            exact recalls.untouched other otherBound fun saved member =>
              absent saved (by simp [member])
      · next missing =>
          rw [Array.getElem?_eq_none_iff] at missing
          omega
  · next stale =>
      refine ⟨recalls.size, by omega, recalls.saved, ?_⟩
      intro other bound absent
      by_cases same : other = index
      · subst same
        have unheld : journal.holds other = false := holds_eq_false_iff.mpr absent
        exact absurd (by simp [unheld, recalls.size, bound]) stale
      · rw [others other same]
        exact recalls.untouched other bound absent

end Journal

end RigLowering
