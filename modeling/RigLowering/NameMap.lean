namespace RigLowering

/-! Finite maps from names.  The entries stand in the order of their names, by code point, so two
maps with the same entries are the same value. -/

structure NameMap (α : Type) where
  entries : List (String × α)
  ordered : entries.Pairwise (fun first second => first.1 < second.1)
  deriving DecidableEq

namespace NameMap

variable {α : Type}

def empty : NameMap α := ⟨[], .nil⟩

instance : Inhabited (NameMap α) := ⟨empty⟩

def lookupEntry (name : String) : List (String × α) → Option α
  | [] => none
  | entry :: rest => if entry.1 = name then some entry.2 else lookupEntry name rest

def find? (map : NameMap α) (name : String) : Option α :=
  lookupEntry name map.entries

def contains (map : NameMap α) (name : String) : Bool :=
  (map.find? name).isSome

def size (map : NameMap α) : Nat :=
  map.entries.length

def names (map : NameMap α) : List String :=
  map.entries.map (·.1)

def values (map : NameMap α) : List α :=
  map.entries.map (·.2)

def insertEntry (name : String) (value : α) : List (String × α) → List (String × α)
  | [] => [(name, value)]
  | entry :: rest =>
      if name < entry.1 then (name, value) :: entry :: rest
      else if entry.1 < name then entry :: insertEntry name value rest
      else (name, value) :: rest

theorem mem_insertEntry {name : String} {value : α} {entries : List (String × α)}
    {entry : String × α} (member : entry ∈ insertEntry name value entries) :
    entry = (name, value) ∨ entry ∈ entries := by
  induction entries with
  | nil => simpa [insertEntry] using member
  | cons head rest ih =>
      simp only [insertEntry] at member
      split at member
      · simpa using member
      · split at member
        · rcases List.mem_cons.1 member with rfl | later
          · simp
          · rcases ih later with inserted | former
            · simp [inserted]
            · simp [former]
        · rcases List.mem_cons.1 member with inserted | former
          · simp [inserted]
          · simp [former]

theorem insertEntry_ordered (name : String) (value : α) {entries : List (String × α)}
    (ordered : entries.Pairwise (fun first second => first.1 < second.1)) :
    (insertEntry name value entries).Pairwise (fun first second => first.1 < second.1) := by
  induction entries with
  | nil => simp [insertEntry]
  | cons head rest ih =>
      obtain ⟨first, restOrdered⟩ := List.pairwise_cons.1 ordered
      simp only [insertEntry]
      split
      · next before =>
          refine List.pairwise_cons.2 ⟨fun entry member => ?_, ordered⟩
          rcases List.mem_cons.1 member with rfl | later
          · exact before
          · exact String.lt_trans before (first entry later)
      · next notBefore =>
          split
          · next after =>
              refine List.pairwise_cons.2 ⟨fun entry member => ?_, ih restOrdered⟩
              rcases mem_insertEntry member with rfl | later
              · exact after
              · exact first entry later
          · next notAfter =>
              have same : name = head.1 :=
                String.le_antisymm (String.not_lt.1 notAfter) (String.not_lt.1 notBefore)
              refine List.pairwise_cons.2 ⟨fun entry member => ?_, restOrdered⟩
              exact same ▸ first entry member

def insert (map : NameMap α) (name : String) (value : α) : NameMap α :=
  ⟨insertEntry name value map.entries, insertEntry_ordered name value map.ordered⟩

def erase (map : NameMap α) (name : String) : NameMap α :=
  ⟨map.entries.filter (·.1 ≠ name), map.ordered.filter _⟩

/-- Of two pairs with one name the later one stays. -/
def ofList (pairs : List (String × α)) : NameMap α :=
  pairs.foldl (fun map pair => map.insert pair.1 pair.2) empty

/-- The entries of `map` and, for names that it lacks, those of `other`. -/
def merge (map other : NameMap α) : NameMap α :=
  other.entries.foldl
    (fun merged entry => if merged.contains entry.1 then merged else merged.insert entry.1 entry.2)
    map

def map {β : Type} (f : α → β) (self : NameMap α) : NameMap β :=
  ⟨self.entries.map (fun entry => (entry.1, f entry.2)),
    List.pairwise_map.2 (self.ordered.imp (fun before => before))⟩

@[simp] theorem find?_empty (name : String) : (empty : NameMap α).find? name = none := rfl

theorem lookupEntry_insertEntry (name other : String) (value : α)
    (entries : List (String × α)) :
    lookupEntry other (insertEntry name value entries) =
      if name = other then some value else lookupEntry other entries := by
  induction entries with
  | nil => rfl
  | cons head rest ih =>
      simp only [insertEntry]
      split
      · rfl
      · next notBefore =>
          split
          · next after =>
              have apart : name ≠ head.1 := fun same => notBefore.elim (same ▸ same ▸ after)
              by_cases sought : head.1 = other
              · simp [lookupEntry, sought, show name ≠ other from sought ▸ apart]
              · simp [lookupEntry, sought, ih]
          · next notAfter =>
              have same : name = head.1 :=
                String.le_antisymm (String.not_lt.1 notAfter) (String.not_lt.1 notBefore)
              by_cases sought : name = other <;> simp [lookupEntry, ← same, sought]

theorem find?_insert (map : NameMap α) (name other : String) (value : α) :
    (map.insert name value).find? other = if name = other then some value else map.find? other :=
  lookupEntry_insertEntry name other value map.entries

@[simp] theorem find?_insert_self (map : NameMap α) (name : String) (value : α) :
    (map.insert name value).find? name = some value := by
  simp [find?_insert]

theorem find?_map {β : Type} (f : α → β) (self : NameMap α) (name : String) :
    (self.map f).find? name = (self.find? name).map f := by
  obtain ⟨entries, ordered⟩ := self
  simp only [map, find?]
  clear ordered
  induction entries with
  | nil => rfl
  | cons head rest ih =>
      obtain ⟨key, value⟩ := head
      by_cases sought : key = name <;> simp [lookupEntry, sought, ih]

end NameMap

abbrev NameSet := NameMap Unit

namespace NameSet

def add (names : NameSet) (name : String) : NameSet :=
  names.insert name ()

def ofNames (names : List String) : NameSet :=
  names.foldl add NameMap.empty

end NameSet

end RigLowering
