import Mathlib.Data.List.Nodup
import Mathlib.Data.Nat.Find
import Mathlib.Logic.Relation
import RigLowering.Proofs.Ancestry

namespace RigLowering

/-! The bounded walk up a hierarchy stops too early for no ancestor, be there cycles or not. -/

namespace ClassHierarchy

/-- The class that lies the given number of steps above another one. -/
def ascend (hierarchy : ClassHierarchy) : Nat → String → Option String
  | 0, name => some name
  | steps + 1, name => (hierarchy.parent? name).bind (hierarchy.ascend steps)

variable {hierarchy : ClassHierarchy} {name ancestor parent : String} {steps limit : Nat}

theorem ascend_add (hierarchy : ClassHierarchy) (first second : Nat) (name : String) :
    hierarchy.ascend (first + second) name =
      (hierarchy.ascend first name).bind (hierarchy.ascend second) := by
  induction first generalizing name with
  | zero => rw [Nat.zero_add, ascend, Option.bind_some]
  | succ first ih =>
      rw [Nat.succ_add, ascend, ascend, Option.bind_assoc]
      exact Option.bind_congr fun parent _ => ih parent

theorem mem_climb_iff :
    ancestor ∈ hierarchy.climb limit name ↔
      ∃ steps < limit, hierarchy.ascend steps name = some ancestor := by
  induction limit generalizing name with
  | zero => simp
  | succ limit ih =>
      rw [climb, List.mem_cons]
      constructor
      · rintro (rfl | above)
        · exact ⟨0, Nat.succ_pos limit, rfl⟩
        · cases found : hierarchy.parent? name with
          | none =>
              rw [found] at above
              cases above
          | some parent =>
              rw [found] at above
              obtain ⟨steps, few, reached⟩ := ih.mp above
              exact ⟨steps + 1, Nat.succ_lt_succ few, by rw [ascend, found]; exact reached⟩
      · rintro ⟨steps, few, reached⟩
        cases steps with
        | zero => exact .inl (Option.some.inj reached).symm
        | succ steps =>
            obtain ⟨parent, found, onward⟩ := Option.bind_eq_some_iff.mp reached
            rw [found]
            exact .inr (ih.mpr ⟨steps, Nat.lt_of_succ_lt_succ few, onward⟩)

/-- A shortest way up comes by no class twice, and every class that it leaves has an entry. -/
theorem ascend_le_size (reached : hierarchy.ascend steps name = some ancestor)
    (shortest : ∀ fewer < steps, hierarchy.ascend fewer name ≠ some ancestor) :
    steps ≤ hierarchy.size := by
  have split {index : Nat} (before : index < steps) :
      (hierarchy.ascend index name).bind (hierarchy.ascend (steps - index)) = some ancestor := by
    rw [← ascend_add, Nat.add_sub_cancel' (Nat.le_of_lt before), reached]
  have nodup : ((List.range steps).map fun index => hierarchy.ascend index name).Nodup := by
    refine List.Nodup.map_on ?_ List.nodup_range
    intro index indexBefore other otherBefore same
    by_contra different
    wlog earlier : index < other generalizing index other
    · exact this other otherBefore index indexBefore same.symm (Ne.symm different)
        (Nat.lt_of_le_of_ne (Nat.le_of_not_lt earlier) (Ne.symm different))
    -- From where the way comes by a class again, it could have gone on the first time.
    have otherBefore := List.mem_range.mp otherBefore
    apply shortest (index + (steps - other)) (by omega)
    rw [ascend_add, same]
    exact split otherBefore
  have listed : ((List.range steps).map fun index => hierarchy.ascend index name) ⊆
      hierarchy.parents.names.map some := by
    intro entry member
    obtain ⟨index, before, rfl⟩ := List.mem_map.mp member
    obtain ⟨left, there, onward⟩ := Option.bind_eq_some_iff.mp (split (List.mem_range.mp before))
    rw [there]
    refine List.mem_map_of_mem (NameMap.find?_isSome_iff.mp ?_)
    obtain ⟨further, rest⟩ : ∃ further, steps - index = further + 1 :=
      ⟨steps - index - 1, by have := List.mem_range.mp before; omega⟩
    rw [rest] at onward
    obtain ⟨parent, found, _⟩ := Option.bind_eq_some_iff.mp onward
    exact Option.isSome_iff_exists.mpr ⟨parent, found⟩
  have bound := (nodup.subperm listed).length_le
  rwa [List.length_map, List.length_map, List.length_range, ← NameMap.size_eq_length_names]
    at bound

theorem derivesFrom_iff_ascend :
    hierarchy.derivesFrom name ancestor ↔
      ∃ steps, hierarchy.ascend steps name = some ancestor := by
  rw [derivesFrom, List.contains_iff_mem, lineage, mem_climb_iff]
  constructor
  · rintro ⟨steps, _, reached⟩
    exact ⟨steps, reached⟩
  · intro reachable
    have reached := Nat.find_spec reachable
    have room := ascend_le_size reached fun _ => Nat.find_min reachable
    exact ⟨Nat.find reachable, Nat.lt_succ_of_le room, reached⟩

/-- A class derives from what it is and from what its parent derives from. -/
theorem derivesFrom_iff_of_parent (found : hierarchy.parent? name = some parent) :
    hierarchy.derivesFrom name ancestor ↔
      name = ancestor ∨ hierarchy.derivesFrom parent ancestor := by
  rw [derivesFrom_iff_ascend, derivesFrom_iff_ascend]
  constructor
  · rintro ⟨steps, reached⟩
    cases steps with
    | zero => exact .inl (Option.some.inj reached)
    | succ steps =>
        rw [ascend, found] at reached
        exact .inr ⟨steps, reached⟩
  · rintro (rfl | ⟨steps, reached⟩)
    · exact ⟨0, rfl⟩
    · exact ⟨steps + 1, by rw [ascend, found]; exact reached⟩

theorem derivesFrom_trans {middle : String} (first : hierarchy.derivesFrom name middle)
    (second : hierarchy.derivesFrom middle ancestor) : hierarchy.derivesFrom name ancestor := by
  obtain ⟨steps, reached⟩ := derivesFrom_iff_ascend.mp first
  obtain ⟨further, onward⟩ := derivesFrom_iff_ascend.mp second
  exact derivesFrom_iff_ascend.mpr
    ⟨steps + further, by rw [ascend_add, reached, Option.bind_some, onward]⟩

/-- The class is entered in the hierarchy with this parent. -/
def HasParent (hierarchy : ClassHierarchy) (name parent : String) : Prop :=
  hierarchy.parent? name = some parent

theorem exists_ascend_iff :
    (∃ steps, hierarchy.ascend steps name = some ancestor) ↔
      Relation.ReflTransGen hierarchy.HasParent name ancestor := by
  constructor
  · rintro ⟨steps, reached⟩
    induction steps generalizing name with
    | zero =>
        cases reached
        exact .refl
    | succ steps ih =>
        obtain ⟨parent, found, onward⟩ := Option.bind_eq_some_iff.mp reached
        exact .head found (ih onward)
  · intro reachable
    induction reachable using Relation.ReflTransGen.head_induction_on with
    | refl => exact ⟨0, rfl⟩
    | head found _ ih =>
        obtain ⟨steps, onward⟩ := ih
        exact ⟨steps + 1, Option.bind_eq_some_iff.mpr ⟨_, found, onward⟩⟩

/-- A class derives from just the classes that can be reached from it by following parents, be it
by none, by one after another or around a cycle. -/
theorem derivesFrom_iff_reachable :
    hierarchy.derivesFrom name ancestor ↔
      Relation.ReflTransGen hierarchy.HasParent name ancestor :=
  derivesFrom_iff_ascend.trans exists_ascend_iff

/-- A way that takes every entry is still within the bound, and would not be within one less. -/
example :
    let hierarchy := (empty.register "Foot" "Leg").register "Leg" "Rig"
    hierarchy.derivesFrom "Foot" "Rig" = true ∧
      "Rig" ∉ hierarchy.climb hierarchy.size "Foot" := by
  decide

end ClassHierarchy

end RigLowering
