import Mathlib.Data.List.Pairwise
import RigLowering.EvaluatorPins
import RigLowering.Proofs.Ancestry
import RigLowering.Proofs.Steps

namespace RigLowering

namespace ClassHierarchy

inductive Ascends (hierarchy : ClassHierarchy) : String → List String → Prop
  | top {name : String} (parentless : hierarchy.parent? name = none) :
      hierarchy.Ascends name [name]
  | step {name parent : String} {chain : List String}
      (found : hierarchy.parent? name = some parent) (rest : hierarchy.Ascends parent chain) :
      hierarchy.Ascends name (name :: chain)

variable {hierarchy other : ClassHierarchy} {name : String} {chain : List String}

theorem Ascends.climb_eq (ascends : hierarchy.Ascends name chain) {limit : Nat}
    (room : chain.length ≤ limit) : hierarchy.climb limit name = chain := by
  induction ascends generalizing limit with
  | top parentless =>
      cases limit with
      | zero => cases room
      | succ limit => rw [climb, parentless]
  | step found _ ih =>
      cases limit with
      | zero => cases room
      | succ limit =>
          rw [climb, found]
          exact congrArg _ (ih (Nat.le_of_succ_le_succ room))

/-- What happens to classes that are not on the way does not matter. -/
theorem Ascends.congr (ascends : hierarchy.Ascends name chain)
    (same : ∀ member ∈ chain, other.parent? member = hierarchy.parent? member) :
    other.Ascends name chain := by
  induction ascends with
  | top parentless => exact .top ((same _ (by simp)).trans parentless)
  | step found _ ih =>
      exact .step ((same _ (by simp)).trans found) (ih fun member listed =>
        same member (List.mem_cons_of_mem _ listed))

end ClassHierarchy

namespace Field

/-- Pins for the two fields would have the same direction and name. -/
def SharesPin (first second : Field) : Prop :=
  first.direction = second.direction ∧ first.name = second.name

theorem check_eq_ok_iff {field : Field} : field.check = .ok () ↔ field.fault? = none := by
  unfold check
  cases field.fault? <;> simp

theorem fault?_eq_none_iff {field : Field} :
    field.fault? = none ↔
      field.name ≠ "" ∧ field.name ≠ PinName.rig ∧
      ¬ (field.pinType.category = .exec ∨ field.pinType.category = .wildcard) ∧
      field.pinType.fieldKind = field.kind ∧
      ¬ (field.kind = .delegate ∧ field.direction = .output) ∧
      (field.pinType.container = .single ∨ field.pinType.container = .array) := by
  unfold fault?
  split
  · simp_all
  split
  · simp_all
  split
  · simp_all
  split
  · simp_all
  split
  · simp_all
  split <;> simp_all [Decidable.or_iff_not_imp_left]

theorem name_ne_rig {field : Field} (sound : field.fault? = none) : field.name ≠ PinName.rig :=
  (fault?_eq_none_iff.mp sound).2.1

theorem category_ne_exec {field : Field} (sound : field.fault? = none) :
    field.pinType.category ≠ .exec := by
  obtain ⟨_, _, value, _⟩ := fault?_eq_none_iff.mp sound
  exact fun exec => value (.inl exec)

theorem not_delegate_output {field : Field} (sound : field.fault? = none)
    (output : field.direction = .output) : field.kind ≠ .delegate := by
  obtain ⟨_, _, _, _, oneWay, _⟩ := fault?_eq_none_iff.mp sound
  exact fun delegate => oneWay ⟨delegate, output⟩

end Field

namespace RigRegistry

/-- No field has a fault, and no two share a pin. -/
structure FieldsSound (fields : List Field) : Prop where
  sound : ∀ field ∈ fields, field.fault? = none
  apart : fields.Pairwise fun first second => ¬ first.SharesPin second

theorem FieldsSound.eq_of_sharesPin {fields : List Field} (sound : FieldsSound fields)
    {first second : Field} (firstMember : first ∈ fields) (secondMember : second ∈ fields)
    (shared : first.SharesPin second) : first = second := by
  apply Classical.byContradiction
  intro different
  have symmetric : Std.Symm fun first second : Field => ¬ first.SharesPin second :=
    ⟨fun _ _ apart shared => apart ⟨shared.1.symm, shared.2.symm⟩⟩
  exact sound.apart.forall firstMember secondMember different shared

theorem checkFields_eq_ok {className : String} {before fields : List Field}
    (checked : checkFields className before fields = .ok ()) :
    FieldsSound fields ∧ ∀ first ∈ before, ∀ second ∈ fields, ¬ first.SharesPin second := by
  induction fields generalizing before with
  | nil => exact ⟨⟨by simp, .nil⟩, by simp⟩
  | cons field rest ih =>
      obtain ⟨_, fieldChecked, afterField⟩ := bind_eq_ok_iff.mp checked
      split at afterField
      · cases afterField
      · next unused =>
          obtain ⟨restSound, restApart⟩ := ih afterField
          refine ⟨⟨?_, List.pairwise_cons.mpr ⟨?_, restSound.apart⟩⟩, ?_⟩
          · intro other member
            rcases List.mem_cons.mp member with rfl | member
            · exact Field.check_eq_ok_iff.mp fieldChecked
            · exact restSound.sound other member
          · exact restApart field (by simp)
          · intro first firstMember second secondMember shared
            rcases List.mem_cons.mp secondMember with rfl | later
            · apply unused
              rw [List.any_eq_true]
              exact ⟨first, firstMember, by simp [shared.1, shared.2]⟩
            · exact restApart first (List.mem_cons_of_mem _ firstMember) second later shared

/-! Registries that have come about by registering classes. -/

inductive Built : RigRegistry → Prop
  | empty (base : String) : Built (.empty base)
  | register {registry next : RigRegistry} {rigClass : RigClass} (built : registry.Built)
      (registered : registry.register rigClass = .ok next) : Built next

variable {registry next : RigRegistry} {rigClass : RigClass} {name : String}

/-- The name of the base class or of a registered class. -/
def Known (registry : RigRegistry) (name : String) : Prop :=
  name = registry.base ∨ registry.contains name

theorem contains_iff : registry.contains name ↔ ∃ rigClass, registry.find? name = some rigClass :=
  Option.isSome_iff_exists

theorem parent?_hierarchy (registry : RigRegistry) (name : String) :
    registry.hierarchy.parent? name = (registry.find? name).map (·.parent) :=
  NameMap.find?_map ..

/-- What registering a class asks for and does. -/
structure Registers (registry : RigRegistry) (rigClass : RigClass) (next : RigRegistry) :
    Prop where
  base : next.base = registry.base
  new : ¬ registry.Known rigClass.name
  parent : registry.Known rigClass.parent
  fields : FieldsSound (registry.fieldsOf rigClass.parent ++ rigClass.fields)
  find? : ∀ name, next.find? name =
    if rigClass.name = name then some rigClass else registry.find? name

theorem register_eq_ok (registered : registry.register rigClass = .ok next) :
    registry.Registers rigClass next := by
  obtain ⟨_, checked, returned⟩ := bind_eq_ok_iff.mp registered
  cases returned
  unfold check at checked
  split at checked
  · cases checked
  · next placed =>
      unfold placeFault? at placed
      split at placed
      · cases placed
      · split at placed
        · cases placed
        · next new =>
            split at placed
            · cases placed
            · next parent =>
                refine ⟨rfl, new, ?_, (checkFields_eq_ok checked).1, fun _ =>
                  NameMap.find?_insert ..⟩
                unfold Known
                simp only [Bool.not_eq_true', not_and, Bool.not_eq_false, ne_eq] at parent
                by_cases isBase : rigClass.parent = registry.base
                · exact .inl isBase
                · exact .inr (parent isBase)

/-- Every known class ascends to the base class within what a lineage goes through. -/
structure Rooted (registry : RigRegistry) : Prop where
  base : registry.find? registry.base = none
  ascends : ∀ {name}, registry.Known name → ∃ chain, registry.hierarchy.Ascends name chain ∧
    chain.length ≤ registry.hierarchy.size + 1 ∧ registry.base ∈ chain ∧
      ∀ member ∈ chain, registry.Known member
  fields : ∀ {name}, registry.Known name → FieldsSound (registry.fieldsOf name)

theorem lineage_of_ascends {chain : List String} (ascends : registry.hierarchy.Ascends name chain)
    (room : chain.length ≤ registry.hierarchy.size + 1) :
    registry.lineage name = chain.filterMap registry.find? := by
  unfold lineage ClassHierarchy.lineage
  rw [ascends.climb_eq room]

theorem known_base (registry : RigRegistry) : registry.Known registry.base :=
  .inl rfl

theorem rooted_empty (base : String) : (empty base).Rooted := by
  have alone : (empty base).hierarchy.Ascends base [base] := .top rfl
  refine ⟨rfl, ?_, ?_⟩
  · rintro name (rfl | registered)
    · refine ⟨[name], alone, Nat.le_add_left .., List.mem_singleton_self _, ?_⟩
      intro member listed
      exact .inl (List.mem_singleton.mp listed)
    · cases registered
  · rintro name (rfl | registered)
    · rw [fieldsOf, lineage_of_ascends alone (Nat.le_add_left ..)]
      exact ⟨fun _ member => (nomatch member), .nil⟩
    · cases registered

section Registers

variable (registers : registry.Registers rigClass next)

include registers

theorem Registers.parent? (name : String) : next.hierarchy.parent? name =
    if rigClass.name = name then some rigClass.parent else registry.hierarchy.parent? name := by
  rw [parent?_hierarchy, parent?_hierarchy, registers.find?]
  split
  · rfl
  · rfl

theorem Registers.size_lt : registry.hierarchy.size < next.hierarchy.size := by
  have absent : registry.find? rigClass.name = none := by
    apply Option.not_isSome_iff_eq_none.mp
    exact fun found => registers.new (.inr found)
  apply @NameMap.size_lt_of_find? _ _ registry.hierarchy.parents next.hierarchy.parents
    rigClass.name
  · intro name known
    change (next.hierarchy.parent? name).isSome
    rw [registers.parent?]
    split
    · rfl
    · exact known
  · change registry.hierarchy.parent? rigClass.name = none
    rw [parent?_hierarchy, absent]
    rfl
  · change (next.hierarchy.parent? rigClass.name).isSome
    rw [registers.parent?, if_pos rfl]
    rfl

theorem Registers.known_iff : next.Known name ↔ registry.Known name ∨ name = rigClass.name := by
  unfold Known
  rw [registers.base, contains_iff, contains_iff]
  simp only [registers.find?]
  by_cases same : rigClass.name = name
  · simp [same]
  · simp [same, Ne.symm same]

/-- The way up from a class that was known stays what it was. -/
theorem Registers.ascends {chain : List String} (ascends : registry.hierarchy.Ascends name chain)
    (known : ∀ member ∈ chain, registry.Known member) : next.hierarchy.Ascends name chain := by
  apply ascends.congr
  intro member listed
  rw [registers.parent?, if_neg]
  rintro rfl
  exact registers.new (known _ listed)

theorem Registers.filterMap_find? {chain : List String}
    (known : ∀ member ∈ chain, registry.Known member) :
    chain.filterMap next.find? = chain.filterMap registry.find? := by
  apply List.filterMap_congr
  intro member listed
  rw [registers.find?, if_neg]
  rintro rfl
  exact registers.new (known _ listed)

theorem Registers.fieldsOf_known (rooted : registry.Rooted) (known : registry.Known name) :
    next.fieldsOf name = registry.fieldsOf name := by
  obtain ⟨chain, ascends, room, _, members⟩ := rooted.ascends known
  unfold fieldsOf
  rw [lineage_of_ascends ascends room, lineage_of_ascends (registers.ascends ascends members)
    (Nat.le_trans room (Nat.succ_le_succ (Nat.le_of_lt registers.size_lt))),
    registers.filterMap_find? members]

/-- The new class has the fields of its parent and its own. -/
theorem Registers.fieldsOf_new (rooted : registry.Rooted) :
    next.fieldsOf rigClass.name = registry.fieldsOf rigClass.parent ++ rigClass.fields := by
  obtain ⟨chain, ascends, room, _, members⟩ := rooted.ascends registers.parent
  have found : next.find? rigClass.name = some rigClass := by rw [registers.find?, if_pos rfl]
  have parent : next.hierarchy.parent? rigClass.name = some rigClass.parent := by
    rw [registers.parent?, if_pos rfl]
  have longer : (rigClass.name :: chain).length ≤ next.hierarchy.size + 1 :=
    Nat.succ_le_succ (Nat.le_trans room registers.size_lt)
  unfold fieldsOf
  rw [lineage_of_ascends ascends room,
    lineage_of_ascends (.step parent (registers.ascends ascends members)) longer,
    List.filterMap_cons_some found, registers.filterMap_find? members]
  simp

theorem Registers.rooted (rooted : registry.Rooted) : next.Rooted where
  base := by
    rw [registers.base, registers.find?, if_neg]
    · exact rooted.base
    · intro same
      exact registers.new (same ▸ registry.known_base)
  ascends := by
    intro name known
    rcases registers.known_iff.mp known with old | rfl
    · obtain ⟨chain, ascends, room, based, members⟩ := rooted.ascends old
      exact ⟨chain, registers.ascends ascends members,
        Nat.le_trans room (Nat.succ_le_succ (Nat.le_of_lt registers.size_lt)),
        registers.base ▸ based, fun member listed =>
          registers.known_iff.mpr (.inl (members member listed))⟩
    · obtain ⟨chain, ascends, room, based, members⟩ := rooted.ascends registers.parent
      refine ⟨rigClass.name :: chain, .step ?_ (registers.ascends ascends members),
        Nat.succ_le_succ (Nat.le_trans room registers.size_lt),
        List.mem_cons_of_mem _ (registers.base ▸ based), ?_⟩
      · rw [registers.parent?, if_pos rfl]
      · intro member listed
        rcases List.mem_cons.mp listed with rfl | listed
        · exact known
        · exact registers.known_iff.mpr (.inl (members member listed))
  fields := by
    intro name known
    rcases registers.known_iff.mp known with old | rfl
    · rw [registers.fieldsOf_known rooted old]
      exact rooted.fields old
    · rw [registers.fieldsOf_new rooted]
      exact registers.fields

end Registers

theorem Built.rooted (built : registry.Built) : registry.Rooted := by
  induction built with
  | empty base => exact rooted_empty base
  | register _ registered ih => exact (register_eq_ok registered).rooted ih

/-- Every registered class derives from the base class. -/
theorem Built.derivesFrom_base (built : registry.Built) (registered : registry.contains name) :
    registry.hierarchy.derivesFrom name registry.base := by
  obtain ⟨chain, ascends, room, based, _⟩ := built.rooted.ascends (.inr registered)
  unfold ClassHierarchy.derivesFrom ClassHierarchy.lineage
  rw [ascends.climb_eq room, List.contains_iff_mem]
  exact based

variable {settings : EvaluatorSettings} {rigType : String} {spec : PinSpec}

theorem rigType?_eq_some (bound : registry.rigType? settings = some rigType) :
    registry.contains rigType := by
  obtain ⟨_, contained⟩ := Option.filter_eq_some_iff.mp bound
  exact contained

theorem mem_evaluatorPins (bound : registry.rigType? settings = some rigType)
    (member : spec ∈ registry.evaluatorPins settings) :
    spec = ⟨.output, .object rigType, PinName.rig⟩ ∨
      ∃ field ∈ registry.fieldsOf rigType,
        spec = ⟨field.direction, field.pinType, field.name⟩ := by
  have ofField {direction : PinDirection} {disabled : NameSet}
      (listed : spec ∈ registry.fieldPins rigType direction disabled) :
      ∃ field ∈ registry.fieldsOf rigType,
        spec = ⟨field.direction, field.pinType, field.name⟩ := by
    obtain ⟨field, enabled, rfl⟩ := List.mem_map.mp listed
    obtain ⟨fieldMember, matching⟩ := List.mem_filter.mp enabled
    simp only [Bool.and_eq_true, decide_eq_true_eq] at matching
    exact ⟨field, fieldMember, by rw [matching.1]⟩
  unfold evaluatorPins at member
  rw [bound] at member
  simp only [List.mem_append, List.mem_singleton] at member
  rcases member with (input | rig) | output
  · exact .inr (ofField input)
  · exact .inl rig
  · exact .inr (ofField output)

/-- The sub-rig output is the only pin of its name. -/
theorem pinType_of_name_rig (built : registry.Built)
    (bound : registry.rigType? settings = some rigType)
    (member : spec ∈ registry.evaluatorPins settings) (named : spec.name = PinName.rig) :
    spec.pinType = .object rigType := by
  rcases mem_evaluatorPins bound member with rfl | ⟨field, fieldMember, rfl⟩
  · rfl
  · have sound := (built.rooted.fields (.inr (rigType?_eq_some bound))).sound field fieldMember
    exact (Field.name_ne_rig sound named).elim

/-- A field that is found for a pin has the type of the pin. -/
theorem pinType_of_findField? (built : registry.Built)
    (bound : registry.rigType? settings = some rigType)
    (member : spec ∈ registry.evaluatorPins settings) {field : Field}
    (found : registry.findField? rigType spec.name spec.direction = some field) :
    field.fault? = none ∧ field.pinType = spec.pinType := by
  have fields := built.rooted.fields (.inr (rigType?_eq_some bound))
  have fieldMember := List.mem_of_find?_eq_some found
  have sound := fields.sound field fieldMember
  have matching := List.find?_some found
  simp only [Bool.and_eq_true, decide_eq_true_eq] at matching
  refine ⟨sound, ?_⟩
  rcases mem_evaluatorPins bound member with rfl | ⟨other, otherMember, rfl⟩
  · exact (Field.name_ne_rig sound matching.2).elim
  · rw [fields.eq_of_sharesPin fieldMember otherMember matching]

end RigRegistry

end RigLowering
