import RigLowering.Proofs.Ancestry

namespace RigLowering

namespace NameMap

variable {α : Type}

theorem insertEntry_perm {name : String} (value : α) {entries : List (String × α)}
    (fresh : name ∉ entries.map (·.1)) :
    (insertEntry name value entries).Perm ((name, value) :: entries) := by
  induction entries with
  | nil => exact .refl _
  | cons entry rest ih =>
      obtain ⟨other, fresh⟩ := List.ne_and_not_mem_of_not_mem_cons fresh
      rw [insertEntry]
      split
      case isTrue => exact .refl _
      case isFalse notBefore =>
        split
        case isTrue => exact ((ih fresh).cons entry).trans (.swap ..)
        case isFalse notAfter =>
          exact absurd (String.le_antisymm (String.not_lt.mp notAfter) (String.not_lt.mp notBefore))
            other

private theorem foldl_insert_perm {listing : List (String × α)} (map : NameMap α)
    (distinct : ((listing ++ map.entries).map (·.1)).Nodup) :
    (listing.foldl (fun map pair => map.insert pair.1 pair.2) map).entries.Perm
      (listing ++ map.entries) := by
  induction listing generalizing map with
  | nil => exact .refl _
  | cons pair rest ih =>
      rw [List.cons_append, List.map_cons] at distinct
      obtain ⟨fresh, distinct⟩ := List.nodup_cons.mp distinct
      have inserted : (map.insert pair.1 pair.2).entries.Perm (pair :: map.entries) := by
        apply insertEntry_perm
        intro listed
        exact fresh (by rw [List.map_append]; exact List.mem_append_right _ listed)
      have moved : (rest ++ (map.insert pair.1 pair.2).entries).Perm
          (pair :: (rest ++ map.entries)) :=
        (inserted.append_left rest).trans List.perm_middle
      exact (ih _ ((moved.map _).nodup_iff.mpr (List.nodup_cons.mpr ⟨fresh, distinct⟩))).trans moved

/-- Two maps with the same entries are the same map. -/
theorem eq_of_perm {map other : NameMap α} (same : map.entries.Perm other.entries) :
    map = other := by
  obtain ⟨entries, ordered⟩ := map
  obtain ⟨others, othersOrdered⟩ := other
  have equal : entries = others :=
    same.eq_of_pairwise (fun _ _ _ _ before after => absurd before (String.lt_asymm after))
      ordered othersOrdered
  subst equal
  rfl

theorem ofList_eq_of_perm {map : NameMap α} {listing : List (String × α)}
    (same : listing.Perm map.entries) : ofList listing = map := by
  have distinct : (listing.map (·.1)).Nodup := (same.map _).nodup_iff.mpr map.names_nodup
  apply eq_of_perm
  have listed : (ofList listing).entries.Perm (listing ++ []) :=
    foldl_insert_perm empty (by simpa [empty] using distinct)
  rw [List.append_nil] at listed
  exact listed.trans same

end NameMap

namespace NameSet

theorem ofNames_eq_ofList (names : List String) :
    ofNames names = NameMap.ofList (names.map (·, ())) := by
  rw [ofNames, NameMap.ofList, List.foldl_map]
  rfl

theorem ofNames_names (names : NameSet) : ofNames names.names = names := by
  rw [ofNames_eq_ofList]
  apply NameMap.ofList_eq_of_perm
  rw [NameMap.names, List.map_map]
  exact .of_eq (List.map_id _)

end NameSet

end RigLowering
