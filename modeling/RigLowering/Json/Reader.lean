import RigLowering.Json.Token

namespace RigLowering.Json

/-! What has been read so far: the containers that are still open, innermost first, and what may
come next. -/

inductive Frame
  | elements (before : List Json)
  | members (before : List (Option String × Json)) (key : Option String)

inductive Reading
  | value (within : List Frame)
  | elementOrEnd (within : List Frame)
  | keyOrEnd (within : List Frame)
  | nextKey (before : List (Option String × Json)) (within : List Frame)
  | colon (before : List (Option String × Json)) (key : Option String) (within : List Frame)
  | complete (value : Json) (within : List Frame)

def ofWord : Option String → Json
  | some word => .text word
  | none => .unreadable

def ofMembers (members : List (Option String × Json)) : Json :=
  match members.mapM fun (key, value) => key.map (·, value) with
  | some members => .object members
  | none => .unreadable

/-- The number of containers that may stand inside one another. -/
def maxDepth : Nat := 127

/-- A container that closes within these others. -/
def Reading.close (container : Json) (within : List Frame) : Reading :=
  .complete (if (within.drop (maxDepth - 1)).isEmpty then container else .unreadable) within

/-- A value may begin with this token. -/
def Reading.start (within : List Frame) : Token → Option Reading
  | .openArray => some (.elementOrEnd within)
  | .openObject => some (.keyOrEnd within)
  | .text word => some (.complete (ofWord word) within)
  | .literal json => some (.complete json within)
  | _ => none

def Reading.next : Reading → Token → Option Reading
  | .value within, token => start within token
  | .elementOrEnd within, .closeArray => some (close (.array []) within)
  | .elementOrEnd within, token => start (.elements [] :: within) token
  | .keyOrEnd within, .closeObject => some (close (.object []) within)
  | .keyOrEnd within, .text key => some (.colon [] key within)
  | .nextKey before within, .text key => some (.colon before key within)
  | .colon before key within, .colon => some (.value (.members before key :: within))
  | .complete json (.elements before :: within), .comma =>
      some (.value (.elements (json :: before) :: within))
  | .complete json (.elements before :: within), .closeArray =>
      some (close (.array (json :: before).reverse) within)
  | .complete json (.members before key :: within), .comma =>
      some (.nextKey ((key, json) :: before) within)
  | .complete json (.members before key :: within), .closeObject =>
      some (close (ofMembers ((key, json) :: before).reverse) within)
  | _, _ => none

def Reading.run (reading : Reading) (cs : List Char) : Option Reading :=
  match _left : cs.dropWhile isBlank with
  | [] => some reading
  | c :: rest =>
      match _read : Token.first? (c :: rest) with
      | none => none
      | some (token, after) =>
          match reading.next token with
          | none => none
          | some reading => reading.run after
termination_by cs.length
decreasing_by
  have shorter := Token.first?_shorter _read
  have within : (cs.dropWhile isBlank).length ≤ cs.length :=
    (List.dropWhile_suffix isBlank).length_le
  rw [_left] at within
  omega

/-- The one value that the text holds. -/
def parse? (text : String) : Option Json :=
  match (Reading.value []).run text.toList with
  | some (.complete value []) => some value
  | _ => none

end RigLowering.Json
