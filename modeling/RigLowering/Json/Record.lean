import RigLowering.Json.Value

namespace RigLowering.Json

def text? : Json → Option String
  | .text value => some value
  | _ => none

def flag? : Json → Option Bool
  | .bool value => some value
  | _ => none

/-- A number below `limit` that is written with digits alone. -/
def below? (limit : Nat) : Json → Option Nat
  | .natural value => if value < limit then some value else none
  | _ => none

/-- Identities and counters fit sixty-four bits. -/
def count? : Json → Option Nat :=
  below? UInt64.size

def list? {α : Type} (decode : Json → Option α) : Json → Option (List α)
  | .array elements => elements.mapM decode
  | _ => none

def nullable? {α : Type} (decode : Json → Option α) : Json → Option (Option α)
  | .null => some none
  | json => (decode json).map some

/-- One of a few choices, each known by its code.  A code may also be the key of an otherwise
empty member. -/
def choice? {α : Type} (choices : List α) (code : α → String) : Json → Option α
  | .text value => choices.find? (code · == value)
  | .object [(value, .null)] => choices.find? (code · == value)
  | _ => none

def ofOption {α : Type} (encode : α → Json) : Option α → Json
  | none => .null
  | some value => encode value

/-! Records.  A record is written as an object, whose unknown members are passed over, or as the
array of its first slots in their order. -/

structure Record where
  slots : List (String × Json)

def record? (keys : List String) : Json → Option Record
  | .object members =>
      let known := members.filter (fun member => keys.contains member.1)
      if (known.map (·.1)).Nodup then some ⟨known⟩ else none
  | .array elements => if elements.length ≤ keys.length then some ⟨keys.zip elements⟩ else none
  | _ => none

namespace Record

def find? (record : Record) (key : String) : Option Json :=
  (record.slots.find? (·.1 == key)).map (·.2)

def required {α : Type} (record : Record) (key : String) (decode : Json → Option α) : Option α :=
  (record.find? key).bind decode

def defaulted {α : Type} (record : Record) (key : String) (default : α)
    (decode : Json → Option α) : Option α :=
  match record.find? key with
  | none => some default
  | some json => decode json

/-- A slot that may be missing or null. -/
def optional {α : Type} (record : Record) (key : String) (decode : Json → Option α) :
    Option (Option α) :=
  record.defaulted key none (nullable? decode)

end Record

/-- The member for an optional value, which is left out when there is none. -/
def optionalMember {α : Type} (key : String) (encode : α → Json) :
    Option α → List (String × Json)
  | none => []
  | some value => [(key, encode value)]

end RigLowering.Json
