import Mathlib.Data.List.TakeWhile
import RigLowering.Json.Printer
import RigLowering.Json.Token

namespace RigLowering.Json

theorem mapM_map_eq_some {α β : Type} {encode : α → β} {decode : β → Option α} {values : List α}
    (decodes : ∀ value ∈ values, decode (encode value) = some value) :
    (values.map encode).mapM decode = some values := by
  induction values with
  | nil => rfl
  | cons value rest ih =>
      obtain ⟨first, others⟩ := List.forall_mem_cons.mp decodes
      rw [List.map_cons, List.mapM_cons, first, ih others]
      rfl

theorem hexDigit?_hexChar {digit : Nat} (small : digit < 16) :
    hexDigit? (hexChar digit) = some digit := by
  have all : ∀ digit < 16, hexDigit? (hexChar digit) = some digit := by decide
  exact all digit small

theorem hexUnit?_of_control {c : Char} (control : c.toNat < 0x20) :
    hexUnit? ['0', '0', hexChar (c.toNat / 16), hexChar (c.toNat % 16)] = some c.toNat := by
  have zero : hexDigit? '0' = some 0 := by decide
  have high : hexDigit? (hexChar (c.toNat / 16)) = some (c.toNat / 16) :=
    hexDigit?_hexChar (by omega)
  have low : hexDigit? (hexChar (c.toNat % 16)) = some (c.toNat % 16) :=
    hexDigit?_hexChar (by omega)
  simp only [hexUnit?, List.foldlM_cons, List.foldlM_nil, zero, high, low, Option.map_some,
    Option.bind_eq_bind, Option.bind_some, Option.pure_def]
  congr 1
  omega

theorem codePoint_of_control {c : Char} (control : c.toNat < 0x20) (rest : List Char) :
    codePoint c.toNat rest = (some c, rest) := by
  have noHigh : isHighSurrogate c.toNat = false := by
    simp only [isHighSurrogate, Bool.and_eq_false_iff, decide_eq_false_iff_not]
    omega
  have noLow : isLowSurrogate c.toNat = false := by
    simp only [isLowSurrogate, Bool.and_eq_false_iff, decide_eq_false_iff_not]
    omega
  rw [codePoint, noHigh, noLow, Char.ofNat_toNat]
  rfl

theorem character?_quotedChar (c : Char) (rest : List Char) :
    character? (quotedChar c ++ rest) = some (some c, rest) := by
  unfold quotedChar
  iterate 7 (split; · next same => subst same; rfl)
  split
  case isTrue control =>
    simp only [List.cons_append, List.nil_append, character?, hexUnit?_of_control control,
      Option.map_some, codePoint_of_control control]
  case isFalse _ backslash _ _ _ _ _ printed =>
    rw [List.cons_append, List.nil_append, character?.eq_def]
    split <;> simp_all

theorem head?_quotedChar_ne (c : Char) (rest : List Char) :
    (quotedChar c ++ rest).head? ≠ some '"' := by
  unfold quotedChar
  repeat' split
  all_goals simp_all

theorem closeText_of_character? {before : List (Option Char)} {cs rest : List Char}
    {c : Option Char} (goesOn : cs.head? ≠ some '"') (first : character? cs = some (c, rest)) :
    closeText before cs = closeText (c :: before) rest := by
  rw [closeText.eq_def]
  split
  case h_1 => exact absurd rfl goesOn
  case h_2 =>
    split
    case h_1 none => rw [first] at none; cases none
    case h_2 read => rw [first] at read; cases read; rfl

theorem word?_map_some (cs : List Char) : word? (cs.map some) = some (String.ofList cs) := by
  have all : (cs.map some).mapM id = some cs := mapM_map_eq_some fun _ _ => rfl
  rw [word?, all, Option.map_some]

theorem closeText_quoted (before cs rest : List Char) :
    closeText (before.reverse.map some) (cs.flatMap quotedChar ++ '"' :: rest) =
      some (some (String.ofList (before ++ cs)), rest) := by
  induction cs generalizing before with
  | nil =>
      rw [List.flatMap_nil, List.nil_append, closeText, List.map_reverse, List.reverse_reverse,
        word?_map_some, List.append_nil]
  | cons c others ih =>
      rw [List.flatMap_cons, List.append_assoc,
        closeText_of_character? (head?_quotedChar_ne c _) (character?_quotedChar c _)]
      have longer := ih (before ++ [c])
      rwa [List.reverse_append, List.append_assoc] at longer

theorem Token.first?_quoted (text : String) (rest : List Char) :
    first? ((quoted text).toList ++ rest) = some (.text (some text), rest) := by
  have closes := closeText_quoted [] text.toList rest
  rw [List.reverse_nil, List.map_nil, List.nil_append, String.ofList_toList] at closes
  have spelled : (quoted text).toList ++ rest =
      '"' :: (text.toList.flatMap quotedChar ++ '"' :: rest) := by
    simp [quoted]
  rw [spelled, first?, closes]
  rfl

theorem decimalValue_toDigits (n : Nat) : decimalValue (Nat.toDigits 10 n) = n := by
  calc
    decimalValue (Nat.toDigits 10 n) = Nat.ofDigitChars 10 (Nat.toDigits 10 n) 0 :=
      Nat.ofDigitChars_eq_foldl.symm
    _ = n := Nat.ofDigitChars_ten_toDigits

theorem le_foldl_withDigit (value : Nat) (digits : List Char) :
    value ≤ digits.foldl withDigit value := by
  induction digits generalizing value with
  | nil => exact Nat.le_refl _
  | cons digit rest ih =>
      have step : value ≤ withDigit value digit := by unfold withDigit; omega
      exact Nat.le_trans step (ih _)

theorem Magnitude.ofWhole_of_fits {significand : Nat} {digits : List Char}
    (fits : digits.foldl withDigit significand < UInt64.size) :
    ofWhole significand digits = ⟨digits.foldl withDigit significand, 0⟩ := by
  induction digits generalizing significand with
  | nil => rfl
  | cons digit rest ih =>
      have first : withDigit significand digit < UInt64.size :=
        Nat.lt_of_le_of_lt (le_foldl_withDigit _ rest) fits
      rw [ofWhole, if_pos first, ih fits, List.foldl_cons]

theorem nearestDouble_le (n : Nat) : nearestDouble n ≤ n + Nat.pow 2 (n.log2 - 52) := by
  have below : n / Nat.pow 2 (n.log2 - 52) * Nat.pow 2 (n.log2 - 52) ≤ n := Nat.div_mul_le_self ..
  unfold nearestDouble
  dsimp only
  split
  · omega
  · rw [Nat.add_mul, Nat.one_mul]
    omega

theorem Magnitude.isFinite_of_fits {n : Nat} (fits : n < UInt64.size) :
    isFinite ⟨n, 0⟩ = true := by
  by_cases none : n = 0
  · subst none
    rfl
  · have bits : n.log2 < 64 := (Nat.log2_lt none).mpr fits
    have unit : Nat.pow 2 (n.log2 - 52) ≤ Nat.pow 2 12 :=
      Nat.pow_le_pow_right (by decide) (by omega)
    have near : nearestDouble n < Nat.pow 2 65 := by
      have total := Nat.add_le_add (Nat.le_of_lt fits) unit
      exact Nat.lt_of_le_of_lt ((nearestDouble_le n).trans total) (by decide)
    have one : nearestDouble (Nat.pow 10 (0 : Int).toNat) = 1 := by decide
    have large : Nat.pow 2 65 ≤ Nat.pow 2 1024 - Nat.pow 2 970 := by decide +kernel
    simp only [isFinite, one, Nat.mul_one, Bool.or_eq_true, Bool.and_eq_true, decide_eq_true_eq]
    exact .inr ⟨by decide, Nat.lt_of_lt_of_le near large⟩

theorem head?_toDigits_ne_zero {n : Nat} (some : n ≠ 0) :
    (Nat.toDigits 10 n).head? ≠ .some '0' := by
  induction n using Nat.strongRecOn with
  | ind n ih =>
      by_cases small : n < 10
      · have all : ∀ n < 10, n ≠ 0 → (Nat.toDigits 10 n).head? ≠ .some '0' := by decide
        exact all n small some
      · have shorter := ih (n / 10) (by omega) (by omega)
        rw [Nat.toDigits_of_base_le (by decide) (Nat.not_lt.mp small), List.head?_append]
        cases first : (Nat.toDigits 10 (n / 10)).head? with
        | none => exact absurd (List.head?_eq_none_iff.mp first) Nat.toDigits_ne_nil
        | some c => rwa [first] at shorter

theorem isDigit_of_mem_digits {n : Nat} {c : Char} (member : c ∈ Nat.toDigits 10 n) : c.isDigit :=
  Nat.isDigit_of_mem_toDigits (by decide) (by decide) member

theorem numeral?_toDigits {n : Nat} (fits : n < UInt64.size) :
    numeral? (Nat.toDigits 10 n) = some (.natural n) := by
  have value := decimalValue_toDigits n
  have gathered : Magnitude.ofWhole 0 (Nat.toDigits 10 n) = ⟨n, 0⟩ := by
    rw [Magnitude.ofWhole_of_fits] <;> rw [← decimalValue, value]
    exact fits
  have whole : (Nat.toDigits 10 n).takeWhile Char.isDigit = Nat.toDigits 10 n :=
    List.takeWhile_eq_self_iff.mpr fun c member => isDigit_of_mem_digits member
  have rest : (Nat.toDigits 10 n).dropWhile Char.isDigit = [] :=
    List.dropWhile_eq_nil_iff.mpr fun c member => isDigit_of_mem_digits member
  have unsigned : (Nat.toDigits 10 n).head? ≠ some '-' := by
    intro signed
    have digit := isDigit_of_mem_digits (List.mem_of_mem_head? signed)
    simp at digit
  have noZero :
      ((Nat.toDigits 10 n).head? = some '0' && (Nat.toDigits 10 n).length != 1) = false := by
    by_cases zero : n = 0
    · subst zero
      rfl
    · simp [head?_toDigits_ne_zero zero]
  rw [numeral?, if_neg unsigned, whole, rest, gathered, noZero]
  simp [Magnitude.complete?, exponent?, Magnitude.scale, Magnitude.isFinite_of_fits fits, value]

theorem Token.first?_of_isDigit {c : Char} (digit : c.isDigit) (rest : List Char) :
    first? (c :: rest) =
      (numeral? (c :: rest.takeWhile isNumeralChar)).map
        fun value => (.literal value, rest.dropWhile isNumeralChar) := by
  unfold first?
  split <;> simp_all

/-- What follows a number must not go on with it. -/
def EndsNumeral (cs : List Char) : Prop :=
  ∀ c ∈ cs.head?, isNumeralChar c = false

theorem EndsNumeral.takeWhile_eq {cs : List Char} (ends : EndsNumeral cs) :
    cs.takeWhile isNumeralChar = [] := by
  cases cs with
  | nil => rfl
  | cons c rest => exact List.takeWhile_cons_of_neg (by simp [ends c rfl])

theorem EndsNumeral.dropWhile_eq {cs : List Char} (ends : EndsNumeral cs) :
    cs.dropWhile isNumeralChar = cs := by
  cases cs with
  | nil => rfl
  | cons c rest => exact List.dropWhile_cons_of_neg (by simp [ends c rfl])

theorem Token.first?_repr {n : Nat} (fits : n < UInt64.size) {rest : List Char}
    (ends : EndsNumeral rest) :
    first? ((Nat.repr n).toList ++ rest) = some (.literal (.natural n), rest) := by
  have numeral := numeral?_toDigits fits
  have digits := @isDigit_of_mem_digits n
  rw [Nat.toList_repr]
  cases spelled : Nat.toDigits 10 n with
  | nil => exact absurd spelled Nat.toDigits_ne_nil
  | cons c others =>
      rw [spelled] at numeral digits
      have numeralChars : ∀ c ∈ others, isNumeralChar c := by
        intro c member
        simp [isNumeralChar, digits (List.mem_cons_of_mem _ member)]
      rw [List.cons_append, first?_of_isDigit (digits List.mem_cons_self),
        List.takeWhile_append_of_pos numeralChars, List.dropWhile_append_of_pos numeralChars,
        ends.takeWhile_eq, ends.dropWhile_eq, List.append_nil, numeral]
      rfl

end RigLowering.Json
