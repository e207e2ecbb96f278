import Mathlib.Data.List.Perm.Subperm
import RigLowering.PinType

namespace RigLowering

namespace NameMap

variable {α : Type}

theorem lookupEntry_isSome_iff {name : String} {entries : List (String × α)} :
    (lookupEntry name entries).isSome ↔ name ∈ entries.map (·.1) := by
  induction entries with
  | nil => simp [lookupEntry]
  | cons entry rest ih =>
      by_cases same : entry.1 = name
      · simp [lookupEntry, same]
      · simp [lookupEntry, same, ih, Ne.symm same]

theorem find?_isSome_iff {map : NameMap α} {name : String} :
    (map.find? name).isSome ↔ name ∈ map.names :=
  lookupEntry_isSome_iff

theorem names_nodup (map : NameMap α) : map.names.Nodup := by
  apply List.pairwise_map.mpr
  apply map.ordered.imp
  intro first second before same
  exact String.lt_irrefl _ (same ▸ before)

theorem size_eq_length_names (map : NameMap α) : map.size = map.names.length :=
  (List.length_map _).symm

/-- A map with entries for all names of another is at least as large. -/
theorem size_le_of_find? {β : Type} {before : NameMap α} {after : NameMap β}
    (found : ∀ name, (before.find? name).isSome → (after.find? name).isSome) :
    before.size ≤ after.size := by
  rw [size_eq_length_names, size_eq_length_names]
  apply (before.names_nodup.subperm _).length_le
  intro name member
  exact find?_isSome_iff.mp (found name (find?_isSome_iff.mpr member))

theorem size_lt_of_find? {β : Type} {before : NameMap α} {after : NameMap β} {name : String}
    (found : ∀ name, (before.find? name).isSome → (after.find? name).isSome)
    (absent : before.find? name = none) (present : (after.find? name).isSome) :
    before.size < after.size := by
  rw [size_eq_length_names, size_eq_length_names]
  have fresh : name ∉ before.names := by
    intro member
    have some := find?_isSome_iff.mpr member
    rw [absent] at some
    cases some
  have nodup : (name :: before.names).Nodup := List.nodup_cons.mpr ⟨fresh, before.names_nodup⟩
  refine (nodup.subperm ?_).length_le
  intro other member
  rcases List.mem_cons.mp member with rfl | old
  · exact find?_isSome_iff.mp present
  · exact find?_isSome_iff.mp (found other (find?_isSome_iff.mpr old))

private theorem find?_foldl_merge (entries : List (String × α)) (map : NameMap α) (name : String) :
    (entries.foldl (fun merged entry =>
      if merged.contains entry.1 then merged else merged.insert entry.1 entry.2) map).find? name =
      (map.find? name).or (lookupEntry name entries) := by
  induction entries generalizing map with
  | nil => simp [lookupEntry]
  | cons entry rest ih =>
      rw [List.foldl_cons, ih, lookupEntry]
      by_cases same : entry.1 = name
      · subst same
        cases found : map.find? entry.1 with
        | some value => simp [contains, found]
        | none => simp [contains, found]
      · rw [if_neg same]
        split
        · rfl
        · rw [find?_insert, if_neg same]

theorem find?_merge (map other : NameMap α) (name : String) :
    (map.merge other).find? name = (map.find? name).or (other.find? name) :=
  find?_foldl_merge other.entries map name

private theorem foldl_merge_eq_self {entries : List (String × α)} {map : NameMap α}
    (known : ∀ entry ∈ entries, map.contains entry.1) :
    entries.foldl (fun merged entry =>
      if merged.contains entry.1 then merged else merged.insert entry.1 entry.2) map = map := by
  induction entries with
  | nil => rfl
  | cons entry rest ih =>
      obtain ⟨first, others⟩ := List.forall_mem_cons.mp known
      rw [List.foldl_cons, if_pos first]
      exact ih others

/-- Names that the map has already are left alone. -/
theorem merge_eq_self {map other : NameMap α}
    (known : ∀ name, (other.find? name).isSome → map.contains name) : map.merge other = map :=
  foldl_merge_eq_self fun entry member =>
    known entry.1 (find?_isSome_iff.mpr (List.mem_map_of_mem member))

theorem merge_merge (map other : NameMap α) : (map.merge other).merge other = map.merge other := by
  apply merge_eq_self
  intro name known
  rw [contains, find?_merge, Option.isSome_or, known, Bool.or_true]

end NameMap

namespace ClassHierarchy

def Extends (before after : ClassHierarchy) : Prop :=
  ∀ {name parent}, before.parent? name = some parent → after.parent? name = some parent

variable {before after : ClassHierarchy}

theorem extends_merge (hierarchy other : ClassHierarchy) :
    hierarchy.Extends (hierarchy.merge other) := by
  intro name parent found
  exact (NameMap.find?_merge ..).trans (Option.or_eq_some_iff.mpr (.inl found))

theorem Extends.size_le (extension : before.Extends after) : before.size ≤ after.size := by
  apply NameMap.size_le_of_find?
  intro name known
  obtain ⟨parent, found⟩ := Option.isSome_iff_exists.mp known
  exact Option.isSome_iff_exists.mpr ⟨parent, extension found⟩

/-- What a walk up one hierarchy comes by, a longer walk up the other comes by too. -/
theorem Extends.climb_subset (extension : before.Extends after) {limit longer : Nat}
    (room : limit ≤ longer) (name : String) :
    before.climb limit name ⊆ after.climb longer name := by
  induction limit generalizing longer name with
  | zero => exact List.nil_subset _
  | succ limit ih =>
      cases longer with
      | zero => exact (Nat.not_succ_le_zero limit room).elim
      | succ longer =>
          rw [climb, climb]
          apply List.cons_subset_cons
          cases found : before.parent? name with
          | none => exact List.nil_subset _
          | some parent =>
              rw [extension found]
              exact ih (Nat.le_of_succ_le_succ room) parent

theorem Extends.derivesFrom (extension : before.Extends after) {name ancestor : String}
    (derives : before.derivesFrom name ancestor) : after.derivesFrom name ancestor := by
  unfold ClassHierarchy.derivesFrom at derives ⊢
  rw [List.contains_iff_mem] at derives ⊢
  exact extension.climb_subset (Nat.succ_le_succ extension.size_le) name derives

end ClassHierarchy

namespace PinType

theorem referentFeeds_mono {accepts more : String → String → Bool}
    (implied : ∀ output input, accepts output input → more output input)
    {output input : Option String} (feeds : referentFeeds accepts output input) :
    referentFeeds more output input := by
  cases input with
  | none => cases output <;> rfl
  | some input =>
      cases output with
      | none => cases feeds
      | some output => exact implied output input feeds

/-- A link that fits goes on fitting in a hierarchy that knows more. -/
theorem feeds_mono {before after : ClassHierarchy} (extension : before.Extends after)
    {output input : PinType} (feeds : output.feeds before input) : output.feeds after input := by
  have derives : ∀ output input, before.derivesFrom output input →
      after.derivesFrom output input := fun _ _ => extension.derivesFrom
  unfold PinType.feeds at feeds ⊢
  split
  · rfl
  · next concrete =>
      rw [if_neg concrete] at feeds
      split
      · next different =>
          rw [if_pos different] at feeds
          cases feeds
      · next agreeing =>
          rw [if_neg agreeing] at feeds
          split at feeds
          · exact referentFeeds_mono derives feeds
          · exact referentFeeds_mono derives feeds
          · exact feeds
          · exact feeds
          · exact feeds

theorem referentFeeds_self {accepts : String → String → Bool}
    (reflexive : ∀ name, accepts name name)
    (referent : Option String) : referentFeeds accepts referent referent := by
  cases referent with
  | none => rfl
  | some name => exact reflexive name

theorem feeds_self (hierarchy : ClassHierarchy) (pinType : PinType) :
    pinType.feeds hierarchy pinType := by
  unfold PinType.feeds
  split
  · rfl
  · rw [if_neg (by simp)]
    split
    · exact referentFeeds_self hierarchy.derivesFrom_self _
    · exact referentFeeds_self hierarchy.derivesFrom_self _
    · exact referentFeeds_self (fun _ => beq_self_eq_true _) _
    · exact referentFeeds_self (fun _ => beq_self_eq_true _) _
    · rfl

end PinType

end RigLowering
