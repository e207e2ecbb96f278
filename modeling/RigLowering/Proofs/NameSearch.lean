import Mathlib.Algebra.Group.Nat.Defs
import Mathlib.Data.Nat.Find
import Mathlib.Order.Bounds.Basic
import RigLowering.Proofs.FunctionNames

namespace RigLowering

/-! The search for a name goes through the candidates one after another.  Nothing bounds it but the
numbers that it counts with, which stay below the thirty-first power of two. -/

/-- From the candidate with this number on, so many probes end with the name. -/
inductive NameSearch (taken : NameSet) (base : String) : Nat → Nat → String → Prop
  | found {number : Nat} (free : ¬ taken.contains (nameCandidate base number)) :
      NameSearch taken base number 1 (nameCandidate base number)
  | onward {number probes : Nat} {name : String}
      (inUse : taken.contains (nameCandidate base number)) (room : number + 1 < 2 ^ 31)
      (rest : NameSearch taken base (number + 1) probes name) :
      NameSearch taken base number (probes + 1) name

variable {taken : NameSet} {base name other : String} {number probes count : Nat}

theorem NameSearch.unique (search : NameSearch taken base number probes name)
    (also : NameSearch taken base number count other) : count = probes ∧ other = name := by
  induction search generalizing count with
  | found free =>
      cases also with
      | found _ => exact ⟨rfl, rfl⟩
      | onward inUse _ _ => exact (free inUse).elim
  | onward inUse _ _ ih =>
      cases also with
      | found free => exact (free inUse).elim
      | onward _ _ rest =>
          obtain ⟨rfl, rfl⟩ := ih rest
          exact ⟨rfl, rfl⟩

/-- The search passes over names in use and stops at the first free one. -/
theorem nameSearch_of_free {more last : Nat} (way : number + more = last)
    (free : ¬ taken.contains (nameCandidate base last))
    (inUse : ∀ earlier < last, taken.contains (nameCandidate base earlier))
    (room : last < 2 ^ 31) :
    NameSearch taken base number (more + 1) (nameCandidate base last) := by
  induction more generalizing number with
  | zero =>
      subst way
      exact .found free
  | succ more ih =>
      have onward : number + 1 + more = last := by omega
      exact .onward (inUse number (by omega)) (by omega) (ih onward)

/-- Some candidate with a number no greater than that of the names in use is free, and the least
such number is where the search ends. -/
theorem exists_least_free (taken : NameSet) (base : String) :
    ∃ number ≤ taken.size, ¬ taken.contains (nameCandidate base number) ∧
      ∀ earlier < number, taken.contains (nameCandidate base earlier) := by
  have free : ∃ number, ¬ taken.contains (nameCandidate base number) := by
    by_contra allTaken
    have within := @le_size_of_candidates_taken taken base (taken.size + 1) fun number _ =>
      not_not.mp fun free => allTaken ⟨number, free⟩
    exact Nat.not_succ_le_self _ within
  have inUse : ∀ earlier < Nat.find free, taken.contains (nameCandidate base earlier) :=
    fun _ earlier => not_not.mp (Nat.find_min free earlier)
  exact ⟨Nat.find free, le_size_of_candidates_taken inUse, Nat.find_spec free, inUse⟩

theorem uniqueName_eq (few : number ≤ taken.size)
    (free : ¬ taken.contains (nameCandidate base number))
    (inUse : ∀ earlier < number, taken.contains (nameCandidate base earlier)) :
    uniqueName taken base = nameCandidate base number := by
  have first : (List.range (taken.size + 1)).find?
      (fun suffix => !taken.contains (nameCandidate base suffix)) = some number := by
    rw [List.find?_range_eq_some]
    refine ⟨by simpa using free, List.mem_range.mpr (Nat.lt_succ_of_le few), ?_⟩
    intro earlier before
    rw [inUse earlier before]
    rfl
  rw [uniqueName, first]
  rfl

theorem nameCandidate_of_pos (positive : 1 ≤ number) :
    nameCandidate base number = base ++ "_" ++ Nat.repr number :=
  if_neg (Nat.ne_of_gt positive)

/-- Where the name itself is in use, the first free candidate has the least number that helps. -/
theorem isLeast_of_least_free (used : taken.contains base)
    (free : ¬ taken.contains (nameCandidate base number))
    (inUse : ∀ earlier < number, taken.contains (nameCandidate base earlier)) :
    IsLeast {number | 1 ≤ number ∧ ¬ taken.contains (base ++ "_" ++ Nat.repr number)} number ∧
      nameCandidate base number = base ++ "_" ++ Nat.repr number := by
  have positive : 1 ≤ number := by
    refine Nat.one_le_iff_ne_zero.mpr fun none => ?_
    subst none
    exact free used
  have named : nameCandidate base number = base ++ "_" ++ Nat.repr number :=
    nameCandidate_of_pos positive
  refine ⟨⟨⟨positive, named ▸ free⟩, ?_⟩, named⟩
  rintro earlier ⟨earlierPositive, earlierFree⟩
  refine Nat.le_of_not_lt fun before => earlierFree ?_
  rw [← nameCandidate_of_pos earlierPositive]
  exact inUse earlier before

/-- However many names are in use below the thirty-first power of two, the search for a name that
is to begin with `base` ends within one probe more than there are names in use.  What it ends with
is reserved: `base` itself where that is free, else `base` with the least number that makes it
so. -/
theorem reserveName_takes_least (state : PassState) (base : String)
    (few : state.functionNames.size < 2 ^ 31) :
    ∃ name names probes,
      Pass.reserveName base state = (.ok name, { state with functionNames := names }) ∧
        (∀ count found, NameSearch state.functionNames base 0 count found ↔
          count = probes ∧ found = name) ∧
        probes ≤ state.functionNames.size + 1 ∧
        (¬ state.functionNames.contains base → name = base) ∧
        (state.functionNames.contains base → ∃ number,
          IsLeast {number | 1 ≤ number ∧
            ¬ state.functionNames.contains (base ++ "_" ++ Nat.repr number)} number ∧
          name = base ++ "_" ++ Nat.repr number) ∧
        ¬ state.functionNames.contains name ∧
        ∀ other, names.contains other ↔ other = name ∨ state.functionNames.contains other := by
  obtain ⟨number, bound, free, inUse⟩ := exists_least_free state.functionNames base
  have search := nameSearch_of_free (Nat.zero_add number) free inUse (Nat.lt_of_le_of_lt bound few)
  refine ⟨nameCandidate base number, state.functionNames.add (nameCandidate base number),
    number + 1, ?_, fun count found => ⟨search.unique, ?_⟩, Nat.succ_le_succ bound, ?_, ?_, free,
      fun other => NameSet.contains_add_iff⟩
  · rw [← uniqueName_eq bound free inUse]
    rfl
  · rintro ⟨rfl, rfl⟩
    exact search
  · intro unused
    cases number with
    | zero => rfl
    | succ number => exact (unused (inUse 0 (Nat.succ_pos number))).elim
  · exact fun used => ⟨number, isLeast_of_least_free used free inUse⟩

/-! Three events of one name, two of them with a number. -/

namespace Ticks

def state : PassState :=
  .start (.empty "Rig") .standard
    (["Tick", "Tick_1", "Tick_3"].foldl
      (fun graph name => ((Edit.addNode (.event "Step" name)).run graph).2) (.empty "Walk" none))

/-- The search goes past two names to the gap between the others. -/
theorem reserves_gap : state.functionNames.size < 2 ^ 31 ∧
    ∃ probes ≤ 4, NameSearch state.functionNames "Tick" 0 probes "Tick_2" ∧
      ¬ state.functionNames.contains "Tick_2" := by
  have few : state.functionNames.size = 3 := by decide +kernel
  have bound : state.functionNames.size < 2 ^ 31 := by rw [few]; decide
  have gap : uniqueName state.functionNames "Tick" = "Tick_2" := by decide +kernel
  obtain ⟨name, names, probes, reserved, search, within, _, _, free, _⟩ :=
    reserveName_takes_least state "Tick" bound
  have named : name = "Tick_2" := by
    rw [← gap]
    exact (Except.ok.inj (congrArg Prod.fst reserved)).symm
  subst named
  rw [few] at within
  exact ⟨bound, probes, within, (search _ _).mpr ⟨rfl, rfl⟩, free⟩

end Ticks

end RigLowering
