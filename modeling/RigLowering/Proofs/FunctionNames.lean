import Mathlib.Data.List.Nodup
import RigLowering.Pass.State
import RigLowering.Proofs.Ancestry

namespace RigLowering

namespace NameSet

variable {names : NameSet} {name other : String}

theorem contains_iff : names.contains name ↔ name ∈ names.names :=
  NameMap.find?_isSome_iff

theorem contains_add_iff :
    (names.add name).contains other ↔ other = name ∨ names.contains other := by
  rw [NameMap.contains, add, NameMap.find?_insert]
  by_cases same : name = other
  · simp [same]
  · simp [same, Ne.symm same, NameMap.contains]

theorem contains_foldl_add_iff (given : List String) :
    (given.foldl add names).contains name ↔ name ∈ given ∨ names.contains name := by
  induction given generalizing names with
  | nil => simp
  | cons first rest ih =>
      rw [List.foldl_cons, ih, contains_add_iff, List.mem_cons, or_left_comm, or_assoc]

theorem contains_ofNames_iff {given : List String} :
    (ofNames given).contains name ↔ name ∈ given := by
  rw [ofNames, contains_foldl_add_iff]
  simp [NameMap.contains]

end NameSet

theorem repr_injective : Function.Injective Nat.repr := by
  intro first second same
  rw [Nat.repr_eq_ofList_toDigits, Nat.repr_eq_ofList_toDigits, String.ofList_inj] at same
  rw [← @Nat.ofDigitChars_ten_toDigits first, same, Nat.ofDigitChars_ten_toDigits]

theorem nameCandidate_injective (base : String) : Function.Injective (nameCandidate base) := by
  intro first second same
  have longer (suffix : Nat) : base ≠ base ++ "_" ++ Nat.repr suffix := by
    intro same
    have lengths := congrArg String.length same
    simp only [String.length_append] at lengths
    have one : "_".length = 1 := rfl
    omega
  unfold nameCandidate at same
  split at same
  · split at same
    · omega
    · exact (longer _ same).elim
  · split at same
    · exact (longer _ same.symm).elim
    · exact repr_injective ((String.append_right_inj _).mp same)

/-- Candidates that are all taken are no more than the taken names. -/
theorem le_size_of_candidates_taken {taken : NameSet} {base : String} {count : Nat}
    (allTaken : ∀ suffix < count, taken.contains (nameCandidate base suffix)) :
    count ≤ taken.size := by
  have nodup : ((List.range count).map (nameCandidate base)).Nodup :=
    List.nodup_range.map (nameCandidate_injective base)
  have within : ∀ name ∈ (List.range count).map (nameCandidate base), name ∈ taken.names := by
    intro name member
    obtain ⟨suffix, bound, rfl⟩ := List.mem_map.mp member
    exact NameSet.contains_iff.mp (allTaken suffix (List.mem_range.mp bound))
  have fit := nodup.subperm within
  simpa [NameMap.size_eq_length_names] using fit.length_le

theorem not_contains_uniqueName (taken : NameSet) (base : String) :
    ¬ taken.contains (uniqueName taken base) := by
  unfold uniqueName
  cases found : (List.range (taken.size + 1)).find?
      fun suffix => !taken.contains (nameCandidate base suffix) with
  | some suffix => simpa using List.find?_some found
  | none =>
      have allTaken : ∀ suffix < taken.size + 1, taken.contains (nameCandidate base suffix) := by
        intro suffix bound
        simpa using List.find?_eq_none.mp found suffix (List.mem_range.mpr bound)
      exact absurd (le_size_of_candidates_taken allTaken) (Nat.not_succ_le_self _)

end RigLowering
