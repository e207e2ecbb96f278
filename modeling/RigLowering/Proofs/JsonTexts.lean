import RigLowering.Json.Reader
import RigLowering.Proofs.JsonTokens

namespace RigLowering.Json

/-- Values whose texts read back: no number outgrows sixty-four bits, no part is unreadable, and
containers stand at most `room` deep in one another.  Spelled numbers are left out. -/
inductive Printable : Nat → Json → Prop
  | null {room : Nat} : Printable room .null
  | bool {room : Nat} (value : Bool) : Printable room (.bool value)
  | natural {room value : Nat} (fits : value < UInt64.size) : Printable room (.natural value)
  | text {room : Nat} (value : String) : Printable room (.text value)
  | array {room : Nat} {elements : List Json}
      (printable : ∀ element ∈ elements, Printable room element) :
      Printable (room + 1) (.array elements)
  | object {room : Nat} {members : List (String × Json)}
      (printable : ∀ member ∈ members, Printable room member.2) :
      Printable (room + 1) (.object members)

theorem Printable.isReadable {room : Nat} {json : Json} (printable : Printable room json) :
    json.isReadable := by
  induction printable with
  | null | bool | natural | text => rfl
  | array _ ih => rwa [Json.isReadable, areReadable_eq_all, List.all_eq_true]
  | object _ ih => rwa [Json.isReadable, areReadableMembers_eq_all, List.all_eq_true]

theorem isBlank_iff {c : Char} : isBlank c ↔ c = ' ' ∨ c = '\t' ∨ c = '\n' ∨ c = '\r' := by
  simp [isBlank, or_assoc]

theorem Token.first?_of_isBlank {c : Char} (blank : isBlank c) (rest : List Char) :
    first? (c :: rest) = none := by
  rcases isBlank_iff.mp blank with rfl | rfl | rfl | rfl <;> simp [first?, numeral?]

namespace Reading

/-- One step, without the equations by which `run` shows that it ends. -/
theorem run_eq (reading : Reading) (cs : List Char) :
    reading.run cs =
      match cs.dropWhile isBlank with
      | [] => some reading
      | c :: rest =>
          (Token.first? (c :: rest)).bind fun (token, after) =>
            (reading.next token).bind (·.run after) := by
  rw [run]
  split
  case h_1 left => rw [left]
  case h_2 left =>
    rw [left]
    dsimp only
    split
    case h_1 none => rw [none, Option.bind_none]
    case h_2 some =>
      rw [some, Option.bind_some]
      split
      case h_1 none => rw [none, Option.bind_none]
      case h_2 some => rw [some, Option.bind_some]

theorem run_append_of_isBlank (reading : Reading) {gap : List Char}
    (blank : ∀ c ∈ gap, isBlank c) (rest : List Char) :
    reading.run (gap ++ rest) = reading.run rest := by
  rw [run_eq, run_eq, List.dropWhile_append_of_pos blank]

theorem run_of_first? {reading following : Reading} {cs after : List Char} {token : Token}
    (first : Token.first? cs = some (token, after)) (next : reading.next token = some following) :
    reading.run cs = following.run after := by
  cases cs with
  | nil => cases first
  | cons c rest =>
      have visible : ¬isBlank c := by
        intro blank
        rw [Token.first?_of_isBlank blank] at first
        cases first
      rw [run_eq, List.dropWhile_cons_of_neg visible]
      simp only [first, next, Option.bind_some]

/-- The reading takes a value next, which stands within these containers. -/
def TakesValue (reading : Reading) (within : List Frame) : Prop :=
  ∀ token, token ≠ .closeArray → reading.next token = start within token

theorem takesValue_value (within : List Frame) : TakesValue (.value within) within :=
  fun _ _ => rfl

theorem takesValue_elementOrEnd (within : List Frame) :
    TakesValue (.elementOrEnd within) (.elements [] :: within) := by
  intro token notEnd
  cases token <;> first | rfl | exact absurd rfl notEnd

/-- The reading takes a key next, of a member after these. -/
def TakesKey (reading : Reading) (before : List (Option String × Json)) (within : List Frame) :
    Prop :=
  ∀ key, reading.next (.text key) = some (.colon before key within)

theorem takesKey_keyOrEnd (within : List Frame) : TakesKey (.keyOrEnd within) [] within :=
  fun _ => rfl

theorem takesKey_nextKey (before : List (Option String × Json)) (within : List Frame) :
    TakesKey (.nextKey before within) before within :=
  fun _ => rfl

theorem close_of_room {within : List Frame} (room : within.length < maxDepth) (container : Json) :
    close container within = .complete container within := by
  have shallow : within.drop (maxDepth - 1) = [] := List.drop_eq_nil_of_le (by omega)
  rw [close, shallow]
  rfl

end Reading

open Reading

/-- The text is read as the value, within containers that leave room for `room` more, if no number
goes on after it. -/
def Spells (room : Nat) (text : List Char) (json : Json) : Prop :=
  ∀ reading within rest, TakesValue reading within → within.length + room ≤ maxDepth →
    EndsNumeral rest → reading.run (text ++ rest) = (Reading.complete json within).run rest

theorem spells_of_first? {room : Nat} {text : List Char} {json : Json} (token : Token)
    (first : ∀ rest, EndsNumeral rest → Token.first? (text ++ rest) = some (token, rest))
    (notEnd : token ≠ .closeArray)
    (starts : ∀ within, start within token = some (.complete json within)) :
    Spells room text json := by
  intro reading within rest takes _ ends
  exact run_of_first? (first rest ends) ((takes token notEnd).trans (starts within))

theorem spells_null (room : Nat) : Spells room "null".toList .null :=
  spells_of_first? (.literal .null) (fun _ _ => rfl) (by simp) fun _ => rfl

theorem spells_bool (room : Nat) (value : Bool) :
    Spells room (if value then "true" else "false").toList (.bool value) := by
  apply spells_of_first? (.literal (.bool value)) _ (by simp) fun _ => rfl
  intro rest _
  cases value <;> rfl

theorem spells_natural (room : Nat) {value : Nat} (fits : value < UInt64.size) :
    Spells room (Nat.repr value).toList (.natural value) :=
  spells_of_first? (.literal (.natural value)) (fun _ => Token.first?_repr fits) (by simp)
    fun _ => rfl

theorem spells_text (room : Nat) (value : String) :
    Spells room (quoted value).toList (.text value) :=
  spells_of_first? (.text (some value)) (fun rest _ => Token.first?_quoted value rest) (by simp)
    fun _ => rfl

/-! The parts of a container stand between commas, and there may be blanks before each of them
and before the end. -/

abbrev Gap := { gap : List Char // ∀ c ∈ gap, isBlank c }

namespace Gap

def none : Gap := ⟨[], by simp⟩

def space : Gap := ⟨[' '], by simp [isBlank]⟩

theorem toList_newline (depth : Nat) :
    (newline depth).toList = '\n' :: List.replicate (2 * depth) ' ' := by
  have blanks (count : Nat) : ("".pushn ' ' count).toList = List.replicate count ' ' := by
    rw [String.pushn_eq_repeat_push]
    induction count with
    | zero => rfl
    | succ count ih => rw [Nat.repeat, String.toList_push, ih, List.replicate_succ']
  rw [newline, String.toList_append, blanks]
  rfl

def newLine (depth : Nat) : Gap where
  val := (newline depth).toList
  property c member := by
    rw [toList_newline] at member
    rcases List.mem_cons.mp member with rfl | member
    · rfl
    · rw [List.eq_of_mem_replicate member]
      rfl

theorem run_append (gap : Gap) (reading : Reading) (rest : List Char) :
    reading.run (gap.val ++ rest) = reading.run rest :=
  run_append_of_isBlank reading gap.property rest

theorem endsNumeral (gap : Gap) {rest : List Char} (ends : EndsNumeral rest) :
    EndsNumeral (gap.val ++ rest) := by
  obtain ⟨gap, blank⟩ := gap
  cases gap with
  | nil => exact ends
  | cons c others =>
      intro first same
      cases same
      rcases isBlank_iff.mp (blank c List.mem_cons_self) with rfl | rfl | rfl | rfl <;> rfl

end Gap

/-- The readings through one container: those that take a part next, after others that are listed
last first, and the one at the end of a part. -/
structure Container (within : List Frame) (α : Type) where
  whole : List α → Json
  opener : Char
  closer : Char
  takes : List α → Reading → Prop
  after : List α → α → Reading
  opens : ∃ token opened, token ≠ .closeArray ∧
    (∀ rest, Token.first? (opener :: rest) = some (token, rest)) ∧
      start within token = some opened ∧ takes [] opened
  goesOn : ∀ before part, ∃ following,
    (after before part).next .comma = some following ∧ takes (part :: before) following
  closes : ∀ before part, ∃ token,
    (∀ rest, Token.first? (closer :: rest) = some (token, rest)) ∧
      (after before part).next token = some (close (whole (part :: before).reverse) within)
  endsNumeral : isNumeralChar closer = false

namespace Container

def elements (within : List Frame) : Container within Json where
  whole := .array
  opener := '['
  closer := ']'
  takes before reading := TakesValue reading (.elements before :: within)
  after before element := .complete element (.elements before :: within)
  opens := ⟨.openArray, _, by simp, fun _ => rfl, rfl, takesValue_elementOrEnd within⟩
  goesOn _ _ := ⟨_, rfl, takesValue_value _⟩
  closes _ _ := ⟨.closeArray, fun _ => rfl, rfl⟩
  endsNumeral := rfl

def keyed (member : String × Json) : Option String × Json :=
  (some member.1, member.2)

theorem ofMembers_map_keyed (members : List (String × Json)) :
    ofMembers (members.map keyed) = .object members := by
  rw [ofMembers, mapM_map_eq_some]
  intro member _
  rfl

def members (within : List Frame) : Container within (String × Json) where
  whole := .object
  opener := '\x7b'
  closer := '\x7d'
  takes before reading := TakesKey reading (before.map keyed) within
  after before member := .complete member.2 (.members (before.map keyed) (some member.1) :: within)
  opens := ⟨.openObject, _, by simp, fun _ => rfl, rfl, takesKey_keyOrEnd within⟩
  goesOn _ _ := ⟨_, rfl, takesKey_nextKey _ _⟩
  closes before member := by
    refine ⟨.closeObject, fun _ => rfl, ?_⟩
    rw [← ofMembers_map_keyed, List.map_reverse]
    rfl
  endsNumeral := rfl

variable {within : List Frame} {α : Type} (container : Container within α)

/-- The text is read as one more part. -/
def SpellsPart (text : List Char) (part : α) : Prop :=
  ∀ before reading rest, container.takes before reading → EndsNumeral rest →
    reading.run (text ++ rest) = (container.after before part).run rest

variable (gap closing : Gap) {text : α → List Char}

/-- A reading that takes a part runs through all of them and up to the end of the container. -/
theorem run_parts {parts : List α} (some : parts ≠ [])
    (spelled : ∀ part ∈ parts, container.SpellsPart (text part) part) {before : List α}
    {reading : Reading} (takes : container.takes before reading) (rest : List Char) :
    reading.run
        ((',' :: gap.val).intercalate (parts.map text) ++ closing.val ++ container.closer :: rest) =
      (close (container.whole (before.reverse ++ parts)) within).run rest := by
  have closingEnds : EndsNumeral (closing.val ++ container.closer :: rest) :=
    closing.endsNumeral fun c same => by cases same; exact container.endsNumeral
  -- Each part that has been read joins those before it, and the reading that follows its comma
  -- takes the next one.
  induction parts generalizing reading before with
  | nil => exact absurd rfl some
  | cons part parts ih =>
      obtain ⟨first, others⟩ := List.forall_mem_cons.mp spelled
      cases parts with
      | nil =>
          obtain ⟨token, read, closes⟩ := container.closes before part
          rw [List.map_singleton, List.intercalate_singleton, List.append_assoc,
            first _ _ _ takes closingEnds, closing.run_append,
            run_of_first? (read rest) closes, List.reverse_cons]
      | cons next parts =>
          obtain ⟨following, moves, takesNext⟩ := container.goesOn before part
          have comma (rest : List Char) :
              Token.first? (',' :: (gap.val ++ rest)) = .some (.comma, gap.val ++ rest) := rfl
          have goesOn := ih (by simp) others takesNext
          rw [List.map_cons] at goesOn
          rw [List.map_cons, List.map_cons, List.intercalate_cons_cons, List.append_assoc]
          simp only [List.append_assoc, List.cons_append] at goesOn ⊢
          rw [first _ _ _ takes (fun c same => by cases same; rfl), run_of_first? (comma _) moves,
            gap.run_append, goesOn, List.reverse_cons, List.append_assoc,
            List.singleton_append]

/-- A reading that takes a value runs through the whole container. -/
theorem run_whole {parts : List α} (some : parts ≠ [])
    (spelled : ∀ part ∈ parts, container.SpellsPart (text part) part) {reading : Reading}
    (takes : TakesValue reading within) (room : within.length < maxDepth) (rest : List Char) :
    reading.run (container.opener :: (gap.val ++
        ((',' :: gap.val).intercalate (parts.map text) ++ closing.val ++
          container.closer :: rest))) =
      (Reading.complete (container.whole parts) within).run rest := by
  obtain ⟨token, opened, notEnd, read, starts, takesPart⟩ := container.opens
  rw [run_of_first? (read _) ((takes token notEnd).trans starts), gap.run_append,
    container.run_parts gap closing some spelled takesPart, List.reverse_nil, List.nil_append,
    close_of_room room]

end Container

theorem spells_emptyArray (room : Nat) : Spells (room + 1) ['[', ']'] (.array []) := by
  intro reading within rest takes shallow _
  have opened : reading.next .openArray = some (.elementOrEnd within) := takes _ (by simp)
  have closed : (Reading.elementOrEnd within).next .closeArray =
      some (.complete (.array []) within) :=
    congrArg some (close_of_room (by omega) _)
  exact (run_of_first? rfl opened).trans (run_of_first? rfl closed)

theorem spells_emptyObject (room : Nat) : Spells (room + 1) ['\x7b', '\x7d'] (.object []) := by
  intro reading within rest takes shallow _
  have opened : reading.next .openObject = some (.keyOrEnd within) := takes _ (by simp)
  have closed : (Reading.keyOrEnd within).next .closeObject =
      some (.complete (.object []) within) :=
    congrArg some (close_of_room (by omega) _)
  exact (run_of_first? rfl opened).trans (run_of_first? rfl closed)

section Layout

variable {room : Nat} (text : Json → List Char) (gap closing : Gap)

theorem spells_array {elements : List Json} (some : elements ≠ [])
    (spelled : ∀ element ∈ elements, Spells room (text element) element) :
    Spells (room + 1)
      ('[' :: (gap.val ++
        ((',' :: gap.val).intercalate (elements.map text) ++ closing.val ++ [']'])))
      (.array elements) := by
  intro reading within rest takes shallow _
  have parts (element : Json) (listed : element ∈ elements) :
      (Container.elements within).SpellsPart (text element) element := by
    intro before reading rest takes ends
    exact spelled element listed reading _ rest takes (by rw [List.length_cons]; omega) ends
  have whole := (Container.elements within).run_whole gap closing some parts takes (by omega) rest
  simpa [Container.elements] using whole

theorem spells_object (between : Gap) {members : List (String × Json)} (some : members ≠ [])
    (spelled : ∀ member ∈ members, Spells room (text member.2) member.2) :
    Spells (room + 1)
      ('\x7b' :: (gap.val ++
        ((',' :: gap.val).intercalate (members.map fun member =>
          (quoted member.1).toList ++ ':' :: (between.val ++ text member.2)) ++
            closing.val ++ ['\x7d'])))
      (.object members) := by
  intro reading within rest takes shallow _
  have parts (member : String × Json) (listed : member ∈ members) :
      (Container.members within).SpellsPart
        ((quoted member.1).toList ++ ':' :: (between.val ++ text member.2)) member := by
    intro before reading rest takes ends
    have colon (rest : List Char) : Token.first? (':' :: rest) = .some (.colon, rest) := rfl
    rw [List.append_assoc, run_of_first? (Token.first?_quoted ..) (takes _), List.cons_append,
      run_of_first? (colon _) rfl, List.append_assoc, between.run_append]
    exact spelled member listed _ _ rest (takesValue_value _) (by rw [List.length_cons]; omega) ends
  have whole := (Container.members within).run_whole gap closing some parts takes (by omega) rest
  simpa [Container.members] using whole

end Layout

theorem compactElements_eq_map (elements : List Json) :
    compactElements elements = elements.map compact := by
  induction elements with
  | nil => rfl
  | cons element rest ih => rw [compactElements, ih, List.map_cons]

theorem compactMembers_eq_map (members : List (String × Json)) :
    compactMembers members =
      members.map fun member => quoted member.1 ++ ":" ++ compact member.2 := by
  induction members with
  | nil => rfl
  | cons member rest ih => rw [compactMembers, ih, List.map_cons]

theorem indentedElements_eq_map (depth : Nat) (elements : List Json) :
    indentedElements depth elements = elements.map (indented depth) := by
  induction elements with
  | nil => rfl
  | cons element rest ih => rw [indentedElements, ih, List.map_cons]

theorem indentedMembers_eq_map (depth : Nat) (members : List (String × Json)) :
    indentedMembers depth members =
      members.map fun member => quoted member.1 ++ ": " ++ indented depth member.2 := by
  induction members with
  | nil => rfl
  | cons member rest ih => rw [indentedMembers, ih, List.map_cons]

theorem Printable.spells_compact {room : Nat} {json : Json} (printable : Printable room json) :
    Spells room json.compact.toList json := by
  induction printable with
  | null => exact spells_null _
  | bool value => exact spells_bool _ value
  | natural fits => exact spells_natural _ fits
  | text value => exact spells_text _ value
  | @array room elements _ ih =>
      by_cases empty : elements = []
      · subst empty
        exact spells_emptyArray room
      · have spelled := spells_array (fun json => json.compact.toList) .none .none empty ih
        simpa [compact, compactElements_eq_map, Gap.none, Function.comp_def] using spelled
  | @object room members _ ih =>
      by_cases empty : members = []
      · subst empty
        exact spells_emptyObject room
      · have spelled := spells_object (fun json => json.compact.toList) .none .none .none empty ih
        simpa [compact, compactMembers_eq_map, Gap.none, Function.comp_def] using spelled

theorem Printable.spells_indented {room : Nat} {json : Json} (printable : Printable room json)
    (depth : Nat) : Spells room (json.indented depth).toList json := by
  induction printable generalizing depth with
  | null => exact spells_null _
  | bool value => exact spells_bool _ value
  | natural fits => exact spells_natural _ fits
  | text value => exact spells_text _ value
  | @array room elements _ ih =>
      cases elements with
      | nil =>
          rw [indented]
          · exact spells_emptyArray room
          all_goals simp
      | cons element rest =>
          have spelled := spells_array (fun json => (json.indented (depth + 1)).toList)
            (.newLine (depth + 1)) (.newLine depth) (by simp)
            fun element listed => ih element listed (depth + 1)
          simpa [indented, indentedElements_eq_map, Gap.newLine, Function.comp_def] using spelled
  | @object room members _ ih =>
      cases members with
      | nil =>
          rw [indented]
          · exact spells_emptyObject room
          all_goals simp
      | cons member rest =>
          have spelled := spells_object (fun json => (json.indented (depth + 1)).toList)
            (.newLine (depth + 1)) (.newLine depth) .space (by simp)
            fun member listed => ih member listed (depth + 1)
          rw [indented, indentedMembers_eq_map]
          simpa only [Gap.newLine, Gap.space, String.toList_append, String.toList_intercalate,
            String.reduceToList, List.map_map, Function.comp_def, List.append_assoc,
            List.cons_append, List.nil_append] using spelled

theorem Spells.parse? {text : String} {json : Json} (spells : Spells maxDepth text.toList json) :
    Json.parse? text = some json := by
  have run := spells (.value []) [] [] (takesValue_value []) (Nat.le_of_eq (Nat.zero_add _))
    fun c none => by cases none
  rw [List.append_nil] at run
  rw [Json.parse?, run, Reading.run_eq]
  rfl

theorem Printable.parse?_compact {json : Json} (printable : Printable maxDepth json) :
    parse? json.compact = some json :=
  printable.spells_compact.parse?

theorem Printable.parse?_indented {json : Json} (printable : Printable maxDepth json)
    (depth : Nat) : parse? (json.indented depth) = some json :=
  (printable.spells_indented depth).parse?

end RigLowering.Json
