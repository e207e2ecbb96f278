import Mathlib.Data.List.Nodup
import RigLowering.Proofs.Registration

namespace RigLowering

namespace NameMap

variable {α β : Type}

theorem map_insertEntry (f : α → β) (name : String) (value : α) (entries : List (String × α)) :
    (insertEntry name value entries).map (fun entry => (entry.1, f entry.2)) =
      insertEntry name (f value) (entries.map fun entry => (entry.1, f entry.2)) := by
  induction entries with
  | nil => rfl
  | cons entry rest ih =>
      simp only [insertEntry, List.map_cons]
      split
      · rfl
      · split
        · rw [List.map_cons, ih]
        · rfl

theorem map_insert (f : α → β) (map : NameMap α) (name : String) (value : α) :
    (map.insert name value).map f = (map.map f).insert name (f value) := by
  simp only [NameMap.map, insert, map_insertEntry]

theorem size_map (f : α → β) (map : NameMap α) : (map.map f).size = map.size :=
  List.length_map _

end NameMap

namespace ClassHierarchy

variable {hierarchy : ClassHierarchy} {name member : String} {chain other : List String}

theorem Ascends.unique (ascends : hierarchy.Ascends name chain)
    (also : hierarchy.Ascends name other) : chain = other := by
  induction ascends generalizing other with
  | top parentless =>
      cases also with
      | top _ => rfl
      | step found _ =>
          rw [parentless] at found
          cases found
  | step found _ ih =>
      cases also with
      | top parentless =>
          rw [found] at parentless
          cases parentless
      | step alsoFound rest =>
          cases found.symm.trans alsoFound
          rw [ih rest]

theorem Ascends.exists_rest (ascends : hierarchy.Ascends name chain) (listed : member ∈ chain) :
    ∃ rest, hierarchy.Ascends member rest ∧ rest.length ≤ chain.length := by
  induction ascends with
  | top parentless =>
      cases List.mem_singleton.mp listed
      exact ⟨_, .top parentless, Nat.le_refl _⟩
  | step found way ih =>
      rcases List.mem_cons.mp listed with rfl | above
      · exact ⟨_, .step found way, Nat.le_refl _⟩
      · obtain ⟨rest, ascends, shorter⟩ := ih above
        exact ⟨rest, ascends, Nat.le_succ_of_le shorter⟩

theorem Ascends.nodup (ascends : hierarchy.Ascends name chain) : chain.Nodup := by
  induction ascends with
  | top _ => exact List.nodup_singleton _
  | step found way ih =>
      refine List.nodup_cons.mpr ⟨fun again => ?_, ih⟩
      obtain ⟨rest, ascends, shorter⟩ := way.exists_rest again
      rw [ascends.unique (.step found way)] at shorter
      exact Nat.not_succ_le_self _ shorter

/-- Of the classes on a way up only the last has no parent. -/
theorem Ascends.exists_top (ascends : hierarchy.Ascends name chain) :
    ∃ below top, chain = below ++ [top] ∧ hierarchy.parent? top = none ∧
      ∀ member ∈ below, (hierarchy.parent? member).isSome := by
  induction ascends with
  | @top name parentless => exact ⟨[], name, rfl, parentless, by simp⟩
  | @step name parent chain found _ ih =>
      obtain ⟨below, top, rfl, parentless, parents⟩ := ih
      refine ⟨name :: below, top, rfl, parentless, List.forall_mem_cons.mpr ⟨?_, parents⟩⟩
      rw [found]
      rfl

end ClassHierarchy

namespace RigRegistry

inductive Walks (registry : RigRegistry) : String → List RigClass → Prop
  | ends {name : String} (unregistered : registry.find? name = none) : registry.Walks name []
  | climbs {name : String} {rigClass : RigClass} {above : List RigClass}
      (found : registry.find? name = some rigClass) (rest : registry.Walks rigClass.parent above) :
      registry.Walks name (rigClass :: above)

variable {registry next : RigRegistry} {rigClass : RigClass} {name : String}

theorem walks_of_ascends {chain : List String} (ascends : registry.hierarchy.Ascends name chain) :
    registry.Walks name (chain.filterMap registry.find?) := by
  induction ascends with
  | top parentless =>
      rw [parent?_hierarchy, Option.map_eq_none_iff] at parentless
      rw [List.filterMap_cons_none parentless]
      exact .ends parentless
  | step found _ ih =>
      rw [parent?_hierarchy] at found
      obtain ⟨rigClass, registered, rfl⟩ := Option.map_eq_some_iff.mp found
      rw [List.filterMap_cons_some registered]
      exact .climbs registered ih

/-- A name that is not known leads nowhere. -/
theorem ascends_of_not_known (unknown : ¬ registry.Known name) :
    registry.hierarchy.Ascends name [name] := by
  apply ClassHierarchy.Ascends.top
  rw [parent?_hierarchy, Option.map_eq_none_iff]
  exact Option.not_isSome_iff_eq_none.mp fun found => unknown (.inr found)

/-- The way up goes through registered classes.  Where it starts from one of them, or from the base
class itself, it ends at the base class. -/
theorem Rooted.exists_way (rooted : registry.Rooted) (name : String) :
    ∃ below top, registry.hierarchy.Ascends name (below ++ [top]) ∧
      below.length ≤ registry.hierarchy.size ∧ registry.find? top = none ∧
        (∀ member ∈ below, registry.contains member) ∧
          (registry.Known name → top = registry.base) := by
  by_cases known : registry.Known name
  · obtain ⟨_, ascends, room, _, members⟩ := rooted.ascends known
    obtain ⟨below, top, rfl, parentless, above⟩ := ascends.exists_top
    rw [List.length_append, List.length_singleton] at room
    rw [parent?_hierarchy, Option.map_eq_none_iff] at parentless
    refine ⟨below, top, ascends, Nat.le_of_succ_le_succ room, parentless, ?_, fun _ => ?_⟩
    · intro member listed
      have parent := above member listed
      rw [parent?_hierarchy, Option.isSome_map] at parent
      exact parent
    · refine (members top (by simp)).resolve_right fun contained => ?_
      exact Option.not_isSome_iff_eq_none.mpr parentless contained
  · exact ⟨[], name, ascends_of_not_known known, Nat.zero_le _,
      Option.not_isSome_iff_eq_none.mp fun found => known (.inr found), by simp,
      fun isKnown => (known isKnown).elim⟩

theorem Rooted.fieldsSound (rooted : registry.Rooted) (name : String) :
    FieldsSound (registry.fieldsOf name) := by
  by_cases known : registry.Known name
  · exact rooted.fields known
  · have absent : registry.find? name = none :=
      Option.not_isSome_iff_eq_none.mp fun found => known (.inr found)
    have none : registry.fieldsOf name = [] := by
      rw [fieldsOf, lineage_of_ascends (ascends_of_not_known known) (Nat.le_add_left ..),
        List.filterMap_cons_none absent]
      rfl
    rw [none]
    exact ⟨by simp, .nil⟩

theorem findField?_eq_some_iff (fields : FieldsSound (registry.fieldsOf name)) {wanted : String}
    {direction : PinDirection} {field : Field} :
    registry.findField? name wanted direction = some field ↔
      field ∈ registry.fieldsOf name ∧ field.direction = direction ∧ field.name = wanted := by
  constructor
  · intro found
    have matching := List.find?_some found
    simp only [Bool.and_eq_true, decide_eq_true_eq] at matching
    exact ⟨List.mem_of_find?_eq_some found, matching⟩
  · rintro ⟨member, rfl, rfl⟩
    cases found : registry.findField? name field.name field.direction with
    | none =>
        have refused := List.find?_eq_none.mp found field member
        simp at refused
    | some other =>
        have matching := List.find?_some found
        simp only [Bool.and_eq_true, decide_eq_true_eq] at matching
        rw [fields.eq_of_sharesPin (List.mem_of_find?_eq_some found) member matching]

end RigRegistry

/-! Classes that are offered one after another, beside a hierarchy of its own that each accepted
one is entered into. -/

structure Enrolment where
  registry : RigRegistry
  hierarchy : ClassHierarchy

namespace Enrolment

def start (base : String) : Enrolment :=
  ⟨.empty base, .empty⟩

/-- A class that is refused changes nothing. -/
def offer (enrolment : Enrolment) (rigClass : RigClass) : Enrolment :=
  match enrolment.registry.register rigClass with
  | .ok next => ⟨next, enrolment.hierarchy.register rigClass.name rigClass.parent⟩
  | .error _ => enrolment

/-- The classes form a tree below the base class which the hierarchy shows, and the fields of each
can be told apart by direction and name. -/
structure Orderly (enrolment : Enrolment) : Prop where
  rooted : ∀ name, enrolment.registry.contains name → ∃ chain,
    enrolment.hierarchy.Ascends name (chain ++ [enrolment.registry.base]) ∧
      (chain ++ [enrolment.registry.base]).Nodup ∧
        chain.length ≤ enrolment.registry.classes.size ∧
          ∀ member ∈ chain, enrolment.registry.contains member
  fieldsEnd : ∀ name, ∃ walked, enrolment.registry.Walks name walked ∧
    walked.length ≤ enrolment.registry.classes.size ∧
      enrolment.registry.fieldsOf name = walked.reverse.flatMap (·.fields)
  entries : enrolment.hierarchy.size = enrolment.registry.classes.size
  parent? : ∀ name, enrolment.hierarchy.parent? name =
    (enrolment.registry.find? name).map (·.parent)
  derivesFrom_base : ∀ name, enrolment.registry.contains name →
    enrolment.hierarchy.derivesFrom name enrolment.registry.base
  fieldsChecked : ∀ name, ∀ field ∈ enrolment.registry.fieldsOf name,
    field.check = .ok () ∧ field.name ≠ PinName.rig
  fieldsApart : ∀ name, (enrolment.registry.fieldsOf name).Pairwise
    fun first second => ¬ first.SharesPin second
  findField? : ∀ name wanted direction field,
    enrolment.registry.findField? name wanted direction = some field ↔
      field ∈ enrolment.registry.fieldsOf name ∧ field.direction = direction ∧
        field.name = wanted

/-- The hierarchy says of the classes what they say themselves. -/
structure InStep (enrolment : Enrolment) : Prop where
  built : enrolment.registry.Built
  hierarchy : enrolment.hierarchy = enrolment.registry.hierarchy

theorem InStep.offer {enrolment : Enrolment} (inStep : enrolment.InStep) (rigClass : RigClass) :
    (enrolment.offer rigClass).InStep := by
  unfold Enrolment.offer
  split
  case h_1 next registered =>
    refine ⟨inStep.built.register registered, ?_⟩
    obtain ⟨_, _, returned⟩ := bind_eq_ok_iff.mp registered
    cases returned
    rw [inStep.hierarchy]
    exact congrArg ClassHierarchy.mk (NameMap.map_insert ..).symm
  case h_2 => exact inStep

theorem inStep_foldl_offer {enrolment : Enrolment} (inStep : enrolment.InStep)
    (classes : List RigClass) : (classes.foldl offer enrolment).InStep := by
  induction classes generalizing enrolment with
  | nil => exact inStep
  | cons rigClass rest ih => exact ih (inStep.offer rigClass)

theorem InStep.orderly {enrolment : Enrolment} (inStep : enrolment.InStep) :
    enrolment.Orderly := by
  obtain ⟨registry, hierarchy⟩ := enrolment
  obtain ⟨built, same⟩ := inStep
  simp only at built same
  subst same
  have rooted := built.rooted
  have entries : registry.hierarchy.size = registry.classes.size := NameMap.size_map ..
  refine ⟨fun name registered => ?_, fun name => ?_, entries, registry.parent?_hierarchy,
    fun name => built.derivesFrom_base, fun name field member => ?_,
    fun name => (rooted.fieldsSound name).apart, fun name wanted direction field =>
      RigRegistry.findField?_eq_some_iff (rooted.fieldsSound name)⟩
  · obtain ⟨below, top, ascends, room, _, members, based⟩ := rooted.exists_way name
    obtain rfl := based (.inr registered)
    exact ⟨below, ascends, ascends.nodup, entries ▸ room, members⟩
  · obtain ⟨below, top, ascends, room, unregistered, _⟩ := rooted.exists_way name
    refine ⟨_, RigRegistry.walks_of_ascends ascends, ?_, ?_⟩
    · rw [List.filterMap_append, List.filterMap_cons_none unregistered, List.filterMap_nil,
        List.append_nil]
      exact Nat.le_trans (List.length_filterMap_le ..) (entries ▸ room)
    · rw [RigRegistry.fieldsOf, RigRegistry.lineage_of_ascends ascends]
      simpa using room
  · have sound := (rooted.fieldsSound name).sound field member
    exact ⟨Field.check_eq_ok_iff.mpr sound, Field.name_ne_rig sound⟩

/-- Whatever classes are offered and in whatever order, what is accepted stays orderly. -/
theorem orderly_of_offers (base : String) (classes : List RigClass) :
    (classes.foldl offer (start base)).Orderly :=
  (inStep_foldl_offer ⟨.empty base, rfl⟩ classes).orderly

end Enrolment

end RigLowering
