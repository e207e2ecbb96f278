namespace RigLowering

/-! JSON values.  Members keep their order and may repeat a key.  A number written with digits
alone is its value; any other number is kept as it is spelled.  Some well-formed texts stand for
no value: a text with half a surrogate pair, an object with such a key, a number beyond the
doubles, and a container nested too deep.  They are unreadable, and matter only to a reader that
looks at them. -/

inductive Json
  | null
  | bool (value : Bool)
  | natural (value : Nat)
  | numeral (spelling : String)
  | text (value : String)
  | array (elements : List Json)
  | object (members : List (String × Json))
  | unreadable

namespace Json

instance : Inhabited Json := ⟨.null⟩

def find? (json : Json) (key : String) : Option Json :=
  match json with
  | .object members => (members.find? (·.1 == key)).map (·.2)
  | _ => none

mutual

def isReadable : Json → Bool
  | .unreadable => false
  | .array elements => areReadable elements
  | .object members => areReadableMembers members
  | _ => true

def areReadable : List Json → Bool
  | [] => true
  | element :: rest => isReadable element && areReadable rest

def areReadableMembers : List (String × Json) → Bool
  | [] => true
  | (_, value) :: rest => isReadable value && areReadableMembers rest

end

theorem areReadable_eq_all (elements : List Json) :
    areReadable elements = elements.all isReadable := by
  induction elements with
  | nil => rfl
  | cons element rest ih => rw [areReadable, List.all_cons, ih]

theorem areReadableMembers_eq_all (members : List (String × Json)) :
    areReadableMembers members = members.all (·.2.isReadable) := by
  induction members with
  | nil => rfl
  | cons member rest ih => rw [areReadableMembers, List.all_cons, ih]

end Json

end RigLowering
