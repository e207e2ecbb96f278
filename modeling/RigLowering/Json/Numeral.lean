import RigLowering.Json.Magnitude
import RigLowering.Json.Value

namespace RigLowering.Json

def isNumeralChar (c : Char) : Bool :=
  c.isDigit || c == '-' || c == '+' || c == '.' || c == 'e' || c == 'E'

/-- The power of ten that digits with a sign or none stand for. -/
def signed? : List Char → Option Int
  | '+' :: digits => natural? digits
  | '-' :: digits => (natural? digits).map (-·)
  | digits => natural? digits
where
  natural? (digits : List Char) : Option Int :=
    if !digits.isEmpty && digits.all Char.isDigit then some (decimalValue digits) else none

/-- An exponent mark, a sign or none, and digits; or nothing at all. -/
def exponent? : List Char → Option Int
  | [] => some 0
  | mark :: rest => if mark == 'e' || mark == 'E' then signed? rest else none

/-- What the fraction and the exponent, or either, make of the whole part. -/
def Magnitude.complete? (magnitude : Magnitude) : List Char → Option Magnitude
  | '.' :: rest =>
      let fraction := rest.takeWhile Char.isDigit
      if fraction.isEmpty then none
      else
        (exponent? (rest.dropWhile Char.isDigit)).map (magnitude.appendFraction fraction).scale
  | rest => (exponent? rest).map magnitude.scale

/-- The number that the characters spell.  Its whole part has no needless leading zero. -/
def numeral? (cs : List Char) : Option Json :=
  let unsigned := if cs.head? = some '-' then cs.tail else cs
  let whole := unsigned.takeWhile Char.isDigit
  let rest := unsigned.dropWhile Char.isDigit
  if whole.isEmpty || (whole.head? = some '0' && whole.length != 1) then none
  else
    ((Magnitude.ofWhole 0 whole).complete? rest).map fun magnitude =>
      if !magnitude.isFinite then .unreadable
      else if rest.isEmpty && unsigned.length == cs.length then .natural (decimalValue whole)
      else .numeral (String.ofList cs)

end RigLowering.Json
