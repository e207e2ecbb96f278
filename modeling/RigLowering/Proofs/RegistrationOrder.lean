import RigLowering.Proofs.NameListing
import RigLowering.Proofs.RegisteredClasses

namespace RigLowering

namespace NameMap

variable {α : Type}

theorem insert_perm {map : NameMap α} {name : String} (new : map.find? name = none) (value : α) :
    (map.insert name value).entries.Perm ((name, value) :: map.entries) := by
  refine insertEntry_perm value fun listed => ?_
  have found := find?_isSome_iff.mpr listed
  rw [new] at found
  cases found

/-- Two new names may be entered in either order. -/
theorem insert_comm {map : NameMap α} {name other : String} (different : name ≠ other)
    (new : map.find? name = none) (otherNew : map.find? other = none) (value otherValue : α) :
    (map.insert name value).insert other otherValue =
      (map.insert other otherValue).insert name value := by
  have newLater : (map.insert other otherValue).find? name = none := by
    rw [find?_insert, if_neg (Ne.symm different), new]
  have otherNewLater : (map.insert name value).find? other = none := by
    rw [find?_insert, if_neg different, otherNew]
  apply eq_of_perm
  calc
    ((map.insert name value).insert other otherValue).entries.Perm
        ((other, otherValue) :: (name, value) :: map.entries) :=
      (insert_perm otherNewLater otherValue).trans ((insert_perm new value).cons _)
    List.Perm _ ((name, value) :: (other, otherValue) :: map.entries) := .swap ..
    List.Perm _ ((map.insert other otherValue).insert name value).entries :=
      (((insert_perm newLater value).trans ((insert_perm otherNew otherValue).cons _))).symm

end NameMap

namespace RigRegistry

variable {registry next : RigRegistry} {rigClass : RigClass} {name : String}

theorem eq_insert_of_register (registered : registry.register rigClass = .ok next) :
    next = { registry with classes := registry.classes.insert rigClass.name rigClass } := by
  obtain ⟨_, _, returned⟩ := bind_eq_ok_iff.mp registered
  exact (Except.ok.inj returned).symm

section Registers

variable (registers : registry.Registers rigClass next)

include registers

theorem Registers.find?_name : registry.find? rigClass.name = none :=
  Option.not_isSome_iff_eq_none.mp fun found => registers.new (.inr found)

/-- The way up from any other name comes by no new class. -/
theorem Registers.exists_ascends (rooted : registry.Rooted) (other : name ≠ rigClass.name) :
    ∃ chain, registry.hierarchy.Ascends name chain ∧ next.hierarchy.Ascends name chain ∧
      chain.length ≤ registry.hierarchy.size + 1 ∧
        ∀ member ∈ chain, next.find? member = registry.find? member := by
  have apart {member : String} (different : member ≠ rigClass.name) :
      next.find? member = registry.find? member := by
    rw [registers.find?, if_neg (Ne.symm different)]
  by_cases known : registry.Known name
  · obtain ⟨chain, ascends, room, _, members⟩ := rooted.ascends known
    refine ⟨chain, ascends, registers.ascends ascends members, room, fun member listed => apart ?_⟩
    rintro rfl
    exact registers.new (members _ listed)
  · have unknown : ¬ next.Known name := fun later =>
      (registers.known_iff.mp later).elim known other
    refine ⟨[name], ascends_of_not_known known, ascends_of_not_known unknown,
      Nat.le_add_left .., fun member listed => ?_⟩
    exact List.mem_singleton.mp listed ▸ apart other

theorem Registers.lineage_other (rooted : registry.Rooted) (other : name ≠ rigClass.name) :
    next.hierarchy.lineage name = registry.hierarchy.lineage name ∧
      next.lineage name = registry.lineage name := by
  obtain ⟨chain, before, after, room, same⟩ := registers.exists_ascends rooted other
  have roomLater : chain.length ≤ next.hierarchy.size + 1 :=
    Nat.le_trans room (Nat.succ_le_succ (Nat.le_of_lt registers.size_lt))
  constructor
  · exact (after.climb_eq roomLater).trans (before.climb_eq room).symm
  · rw [lineage_of_ascends before room, lineage_of_ascends after roomLater,
      List.filterMap_congr same]

end Registers

/-- Two classes that are accepted one after the other in both orders make the same registry. -/
theorem register_comm {first second : RigClass} {afterFirst afterSecond both flipped : RigRegistry}
    (firstRegistered : registry.register first = .ok afterFirst)
    (thenSecond : afterFirst.register second = .ok both)
    (secondRegistered : registry.register second = .ok afterSecond)
    (thenFirst : afterSecond.register first = .ok flipped) : both = flipped := by
  have firstNew := (register_eq_ok firstRegistered).find?_name
  have secondNew := (register_eq_ok secondRegistered).find?_name
  have different : first.name ≠ second.name := by
    intro same
    have absent := (register_eq_ok thenSecond).find?_name
    rw [(register_eq_ok firstRegistered).find?, if_pos same] at absent
    cases absent
  rw [eq_insert_of_register thenSecond, eq_insert_of_register firstRegistered,
    eq_insert_of_register thenFirst, eq_insert_of_register secondRegistered]
  simp only
  rw [NameMap.insert_comm different firstNew secondNew]

end RigRegistry

namespace Enrolment

/-- The registry has a place for the class. -/
def Accepts (enrolment : Enrolment) (rigClass : RigClass) : Prop :=
  ∃ next, enrolment.registry.register rigClass = .ok next

/-- Whatever may be asked about the name has the same answer as before. -/
structure Undisturbed (before after : Enrolment) (name : String) : Prop where
  fieldsOf : after.registry.fieldsOf name = before.registry.fieldsOf name
  enabledFields : ∀ direction disabled, after.registry.enabledFields name direction disabled =
    before.registry.enabledFields name direction disabled
  findField? : ∀ field direction, after.registry.findField? name field direction =
    before.registry.findField? name field direction
  derivesFrom : ∀ ancestor, after.hierarchy.derivesFrom name ancestor =
    before.hierarchy.derivesFrom name ancestor

variable {enrolment : Enrolment} {rigClass : RigClass}

theorem offer_of_registered {next : RigRegistry}
    (registered : enrolment.registry.register rigClass = .ok next) :
    enrolment.offer rigClass =
      ⟨next, enrolment.hierarchy.register rigClass.name rigClass.parent⟩ := by
  rw [offer, registered]

theorem offer_of_refused (refused : ¬ enrolment.Accepts rigClass) :
    enrolment.offer rigClass = enrolment := by
  unfold offer
  split
  case h_1 next registered => exact (refused ⟨next, registered⟩).elim
  case h_2 => rfl

theorem InStep.eq_of_registry_eq {other : Enrolment} (inStep : enrolment.InStep)
    (otherInStep : other.InStep) (same : enrolment.registry = other.registry) :
    enrolment = other := by
  have hierarchies : enrolment.hierarchy = other.hierarchy := by
    rw [inStep.hierarchy, otherInStep.hierarchy, same]
  exact congr (congrArg Enrolment.mk same) hierarchies

theorem InStep.undisturbed (inStep : enrolment.InStep) (accepts : enrolment.Accepts rigClass)
    {name : String} (other : name ≠ rigClass.name) :
    Undisturbed enrolment (enrolment.offer rigClass) name := by
  obtain ⟨next, registered⟩ := accepts
  have hierarchy := (inStep.offer rigClass).hierarchy
  obtain ⟨names, classes⟩ :=
    (RigRegistry.register_eq_ok registered).lineage_other inStep.built.rooted other
  have fields : next.fieldsOf name = enrolment.registry.fieldsOf name := by
    rw [RigRegistry.fieldsOf, classes, RigRegistry.fieldsOf]
  rw [offer_of_registered registered] at hierarchy ⊢
  refine ⟨fields, fun direction disabled => ?_, fun field direction => ?_, fun ancestor => ?_⟩
  · rw [RigRegistry.enabledFields, fields, RigRegistry.enabledFields]
  · rw [RigRegistry.findField?, fields, RigRegistry.findField?]
  · rw [hierarchy, inStep.hierarchy, ClassHierarchy.derivesFrom, names, ClassHierarchy.derivesFrom]

/-- After whatever offers, a class that is accepted was unknown, has the fields of its parent and
then its own, and disturbs no other name.  One that is refused changes nothing.  Two classes that
are accepted in either order lead to the same classes and the same hierarchy. -/
theorem offer_disturbs_no_other (base : String) (classes : List RigClass) (rigClass : RigClass) :
    let before := classes.foldl offer (start base)
    (before.Accepts rigClass →
      ¬ before.registry.contains rigClass.name ∧
        (before.offer rigClass).registry.fieldsOf rigClass.name =
          before.registry.fieldsOf rigClass.parent ++ rigClass.fields ∧
        ∀ name, name ≠ rigClass.name → Undisturbed before (before.offer rigClass) name) ∧
    (¬ before.Accepts rigClass → before.offer rigClass = before) ∧
    ∀ other, before.Accepts rigClass → (before.offer rigClass).Accepts other →
      before.Accepts other → (before.offer other).Accepts rigClass →
        (before.offer rigClass).offer other = (before.offer other).offer rigClass := by
  intro before
  have inStep : before.InStep := inStep_foldl_offer ⟨.empty base, rfl⟩ classes
  refine ⟨fun accepts => ?_, offer_of_refused, fun other accepts accepted others flipped => ?_⟩
  · obtain ⟨next, registered⟩ := id accepts
    have registers := RigRegistry.register_eq_ok registered
    refine ⟨fun contained => registers.new (.inr contained), ?_, fun name different =>
      inStep.undisturbed accepts different⟩
    rw [offer_of_registered registered]
    exact registers.fieldsOf_new inStep.built.rooted
  · apply ((inStep.offer rigClass).offer other).eq_of_registry_eq
      ((inStep.offer other).offer rigClass)
    obtain ⟨afterFirst, firstRegistered⟩ := accepts
    obtain ⟨afterSecond, secondRegistered⟩ := others
    obtain ⟨both, thenSecond⟩ := accepted
    obtain ⟨reversed, thenFirst⟩ := flipped
    rw [offer_of_registered thenSecond, offer_of_registered thenFirst]
    rw [offer_of_registered firstRegistered] at thenSecond
    rw [offer_of_registered secondRegistered] at thenFirst
    exact RigRegistry.register_comm firstRegistered thenSecond secondRegistered thenFirst

/-! A foot below a leg and an arm beside it, and a toe that asks twice for the height. -/

namespace Limbs

def leg : RigClass := ⟨"Leg", "Rig", [⟨"height", .float, .input, .scalar⟩]⟩

def foot : RigClass := ⟨"Foot", "Leg", [⟨"roll", .float, .input, .scalar⟩]⟩

def arm : RigClass := ⟨"Arm", "Rig", []⟩

def toe : RigClass := ⟨"Toe", "Leg", leg.fields⟩

def legs : Enrolment := [leg].foldl offer (start "Rig")

theorem foot_and_arm_in_either_order :
    (legs.Accepts foot ∧ (legs.offer foot).Accepts arm ∧
      legs.Accepts arm ∧ (legs.offer arm).Accepts foot ∧ ¬ legs.Accepts toe) ∧
    (legs.offer foot).registry.fieldsOf "Foot" =
        legs.registry.fieldsOf "Leg" ++ foot.fields ∧
      Undisturbed legs (legs.offer foot) "Leg" ∧ legs.offer toe = legs ∧
        (legs.offer foot).offer arm = (legs.offer arm).offer foot := by
  have acceptsFoot : legs.Accepts foot := ⟨_, rfl⟩
  have thenArm : (legs.offer foot).Accepts arm := ⟨_, rfl⟩
  have acceptsArm : legs.Accepts arm := ⟨_, rfl⟩
  have thenFoot : (legs.offer arm).Accepts foot := ⟨_, rfl⟩
  have refusesToe : ¬ legs.Accepts toe := fun ⟨_, accepted⟩ => by cases accepted
  obtain ⟨_, refused, _⟩ := offer_disturbs_no_other "Rig" [leg] toe
  obtain ⟨accepted, _, commute⟩ := offer_disturbs_no_other "Rig" [leg] foot
  obtain ⟨_, fields, undisturbed⟩ := accepted acceptsFoot
  exact ⟨⟨acceptsFoot, thenArm, acceptsArm, thenFoot, refusesToe⟩, fields,
    undisturbed "Leg" (by decide), refused refusesToe,
    commute arm acceptsFoot thenArm acceptsArm thenFoot⟩

end Limbs

end Enrolment

end RigLowering
