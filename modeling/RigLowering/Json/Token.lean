import RigLowering.Json.Numeral

namespace RigLowering.Json

/-! Tokens of a JSON text.  A text with half a surrogate pair is a token without a value. -/

inductive Token
  | openArray
  | closeArray
  | openObject
  | closeObject
  | comma
  | colon
  | text (value : Option String)
  | literal (value : Json)

def isBlank (c : Char) : Bool :=
  c == ' ' || c == '\t' || c == '\n' || c == '\r'

def hexDigit? (c : Char) : Option Nat :=
  if '0' ≤ c ∧ c ≤ '9' then some (c.toNat - 48)
  else if 'a' ≤ c ∧ c ≤ 'f' then some (c.toNat - 87)
  else if 'A' ≤ c ∧ c ≤ 'F' then some (c.toNat - 55)
  else none

/-- The sixteen-bit unit that four hexadecimal digits stand for. -/
def hexUnit? (digits : List Char) : Option Nat :=
  digits.foldlM (fun unit c => (hexDigit? c).map (16 * unit + ·)) 0

def escaped? : Char → Option Char
  | '"' => some '"'
  | '\\' => some '\\'
  | '/' => some '/'
  | 'b' => some '\x08'
  | 'f' => some '\x0c'
  | 'n' => some '\n'
  | 'r' => some '\r'
  | 't' => some '\t'
  | _ => none

def isHighSurrogate (unit : Nat) : Bool :=
  0xD800 ≤ unit && unit < 0xDC00

def isLowSurrogate (unit : Nat) : Bool :=
  0xDC00 ≤ unit && unit < 0xE000

/-- The low surrogate that is escaped first. -/
def lowSurrogate? : List Char → Option (Nat × List Char)
  | '\\' :: 'u' :: a :: b :: c :: d :: rest =>
      (hexUnit? [a, b, c, d]).bind fun unit =>
        if isLowSurrogate unit then some (unit, rest) else none
  | _ => none

/-- A code unit, joined with the low surrogate that follows a high one.  Half a pair is no
character. -/
def codePoint (unit : Nat) (rest : List Char) : Option Char × List Char :=
  if isHighSurrogate unit then
    match lowSurrogate? rest with
    | some (low, rest) =>
        (some (Char.ofNat (0x10000 + 0x400 * (unit - 0xD800) + (low - 0xDC00))), rest)
    | none => (none, rest)
  else if isLowSurrogate unit then (none, rest)
  else (some (Char.ofNat unit), rest)

/-- What is written first inside a text.  Control characters and unknown escapes are refused. -/
def character? : List Char → Option (Option Char × List Char)
  | '\\' :: 'u' :: a :: b :: c :: d :: rest => (hexUnit? [a, b, c, d]).map (codePoint · rest)
  | '\\' :: c :: rest => (escaped? c).map (some ·, rest)
  | c :: rest => if c.toNat < 0x20 || c == '\\' then none else some (some c, rest)
  | [] => none

theorem lowSurrogate?_shorter {cs rest : List Char} {unit : Nat}
    (escaped : lowSurrogate? cs = some (unit, rest)) : rest.length < cs.length := by
  unfold lowSurrogate? at escaped
  split at escaped
  · obtain ⟨low, -, paired⟩ := Option.bind_eq_some_iff.1 escaped
    split at paired
    · obtain ⟨-, rfl⟩ := Prod.mk.inj (Option.some.inj paired)
      simp only [List.length_cons]
      omega
    · simp at paired
  · simp at escaped

theorem codePoint_shorter (unit : Nat) (cs : List Char) :
    (codePoint unit cs).2.length ≤ cs.length := by
  unfold codePoint
  split
  · split
    case h_1 low rest escaped => exact Nat.le_of_lt (lowSurrogate?_shorter escaped)
    case h_2 => exact Nat.le_refl _
  · split <;> exact Nat.le_refl _

theorem character?_shorter {cs rest : List Char} {c : Option Char}
    (written : character? cs = some (c, rest)) : rest.length < cs.length := by
  unfold character? at written
  split at written
  · rename_i after
    obtain ⟨unit, -, joined⟩ := Option.map_eq_some_iff.1 written
    have shorter := codePoint_shorter unit after
    simp only [joined] at shorter
    simp only [List.length_cons]
    omega
  · obtain ⟨_, -, answered⟩ := Option.map_eq_some_iff.1 written
    obtain ⟨-, rfl⟩ := Prod.mk.inj answered
    simp only [List.length_cons]
    omega
  · split at written <;> simp_all
  · simp at written

/-- A text has a value when each of its characters has one. -/
def word? (characters : List (Option Char)) : Option String :=
  (characters.mapM id).map String.ofList

/-- The text up to the closing quote and what follows it. -/
def closeText (before : List (Option Char)) : List Char → Option (Option String × List Char)
  | '"' :: rest => some (word? before.reverse, rest)
  | cs =>
      match _written : character? cs with
      | none => none
      | some (c, rest) => closeText (c :: before) rest
termination_by cs => cs.length
decreasing_by exact character?_shorter _written

theorem closeText_shorter {before : List (Option Char)} {cs rest : List Char}
    {value : Option String} (closed : closeText before cs = some (value, rest)) :
    rest.length < cs.length := by
  fun_induction closeText before cs with
  | case1 => simp_all
  | case2 => simp at closed
  | case3 before cs _ c after written ih =>
      have shorterRest := ih closed
      have shorter := character?_shorter written
      omega

/-- The token that begins the characters, whose first one is not blank, and what follows it. -/
def Token.first? : List Char → Option (Token × List Char)
  | '[' :: rest => some (.openArray, rest)
  | ']' :: rest => some (.closeArray, rest)
  | '\x7b' :: rest => some (.openObject, rest)
  | '\x7d' :: rest => some (.closeObject, rest)
  | ',' :: rest => some (.comma, rest)
  | ':' :: rest => some (.colon, rest)
  | '"' :: rest => (closeText [] rest).map fun (value, rest) => (.text value, rest)
  | 'n' :: 'u' :: 'l' :: 'l' :: rest => some (.literal .null, rest)
  | 't' :: 'r' :: 'u' :: 'e' :: rest => some (.literal (.bool true), rest)
  | 'f' :: 'a' :: 'l' :: 's' :: 'e' :: rest => some (.literal (.bool false), rest)
  | c :: rest =>
      (numeral? (c :: rest.takeWhile isNumeralChar)).map
        fun value => (.literal value, rest.dropWhile isNumeralChar)
  | [] => none

theorem Token.first?_shorter {cs rest : List Char} {token : Token}
    (read : Token.first? cs = some (token, rest)) : rest.length < cs.length := by
  unfold Token.first? at read
  split at read <;>
    simp only [Option.some.injEq, Prod.mk.injEq, Option.map_eq_some_iff, Prod.exists,
      reduceCtorEq] at read
  case h_7 =>
    obtain ⟨value, after, closed, -, rfl⟩ := read
    have shorter := closeText_shorter closed
    simp only [List.length_cons]
    omega
  case h_11 rest _ _ _ _ _ _ _ _ _ _ =>
    obtain ⟨value, -, -, rfl⟩ := read
    have shorter : (rest.dropWhile isNumeralChar).length ≤ rest.length :=
      (List.dropWhile_suffix isNumeralChar).length_le
    simp only [List.length_cons]
    omega
  all_goals
    obtain ⟨-, rfl⟩ := read
    simp only [List.length_cons]
    omega

end RigLowering.Json
