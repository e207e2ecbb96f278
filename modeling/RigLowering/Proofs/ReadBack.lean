import RigLowering.Document.Graph
import RigLowering.Proofs.JsonTexts

namespace RigLowering

namespace Json

variable {α : Type} {encode : α → Json} {decode : Json → Option α} {room : Nat}

/-- The document reads back as the value, and so does either text of it. -/
structure ReadsBack (json : Json) (decode : Json → Option α) (value : α) : Prop where
  document : decode json = some value
  indented : ∀ depth, decodeText decode (json.indented depth) = .ok value
  compact : decodeText decode json.compact = .ok value

theorem decodeText_of_parse? {text : String} {json : Json} {value : α}
    (parsed : parse? text = some json) (decodes : decode json = some value) :
    decodeText decode text = .ok value := by
  rw [decodeText, parsed, Option.bind_some, decodes]

theorem Printable.readsBack {json : Json} {value : α} (printable : Printable maxDepth json)
    (decodes : decode json = some value) : ReadsBack json decode value where
  document := decodes
  indented depth := decodeText_of_parse? (printable.parse?_indented depth) decodes
  compact := decodeText_of_parse? printable.parse?_compact decodes

@[simp] theorem text?_text (value : String) : text? (.text value) = some value := rfl

@[simp] theorem flag?_bool (value : Bool) : flag? (.bool value) = some value := rfl

@[simp] theorem below?_natural {limit value : Nat} (fits : value < limit) :
    below? limit (.natural value) = some value :=
  if_pos fits

@[simp] theorem list?_map {values : List α}
    (decodes : ∀ value ∈ values, decode (encode value) = some value) :
    list? decode (.array (values.map encode)) = some values :=
  mapM_map_eq_some decodes

@[simp] theorem list?_text (names : List String) :
    list? text? (.array (names.map Json.text)) = some names :=
  list?_map fun name _ => text?_text name

theorem Printable.list {values : List α}
    (printable : ∀ value ∈ values, Printable room (encode value)) :
    Printable (room + 1) (.array (values.map encode)) :=
  .array fun _ listed => by
    obtain ⟨value, member, rfl⟩ := List.mem_map.mp listed
    exact printable value member

/-- A missing value is written as null, so a value that is there must not be. -/
@[simp] theorem nullable?_of_ne_null {json : Json} (some : json ≠ .null) :
    nullable? decode json = (decode json).map .some := by
  cases json <;> first | rfl | exact absurd rfl some

theorem nullable?_ofOption {value : Option α}
    (decodes : ∀ present ∈ value, decode (encode present) = some present)
    (notNull : ∀ present, encode present ≠ .null) :
    nullable? decode (ofOption encode value) = some value := by
  cases value with
  | none => rfl
  | some present =>
      rw [ofOption, nullable?_of_ne_null (notNull present), decodes present rfl, Option.map_some]

theorem Printable.ofOption {value : Option α}
    (printable : ∀ present ∈ value, Printable room (encode present)) :
    Printable room (ofOption encode value) := by
  cases value with
  | none => exact .null
  | some present => exact printable present rfl

/-! Records.  Members whose keys are known and distinct are the slots, and each slot is found under
its key. -/

@[simp] theorem record?_object {keys : List String} {members : List (String × Json)}
    (known : ∀ member ∈ members, member.1 ∈ keys) (distinct : (members.map (·.1)).Nodup) :
    record? keys (.object members) = some ⟨members⟩ := by
  have all : members.filter (fun member => keys.contains member.1) = members :=
    List.filter_eq_self.mpr fun member listed => List.contains_iff_mem.mpr (known member listed)
  simp only [record?, all, distinct, if_true]

namespace Record

@[simp] theorem find?_nil (key : String) : find? ⟨[]⟩ key = none := rfl

@[simp] theorem find?_cons (key other : String) (json : Json) (slots : List (String × Json)) :
    find? ⟨(key, json) :: slots⟩ other =
      if key = other then some json else find? ⟨slots⟩ other := by
  by_cases same : key = other <;> simp [find?, same]

variable (record : Record) (key : String) (decode : Json → Option α)

@[simp] theorem required_eq_bind : record.required key decode = (record.find? key).bind decode :=
  rfl

@[simp] theorem defaulted_eq_elim (default : α) :
    record.defaulted key default decode = (record.find? key).elim (some default) decode := by
  rw [defaulted]
  cases record.find? key <;> rfl

@[simp] theorem optional_eq_elim :
    record.optional key decode = (record.find? key).elim (some none) (nullable? decode) :=
  record.defaulted_eq_elim ..

end Record

end Json

end RigLowering
