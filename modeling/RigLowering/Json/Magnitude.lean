namespace RigLowering.Json

/-! Which numbers a double can hold.  A number is gathered into a whole number of at most
sixty-four bits and a power of ten, each is rounded to fifty-three bits, and their product has to
round to a finite double.  Small numbers may round to nothing, so a negative power is never
refused. -/

/-- The digits that are kept, and the power of ten that they count. -/
structure Magnitude where
  significand : Nat
  exponent : Int

/-- The nearest number of fifty-three significant bits; of two that are equally near, the even
one. -/
def nearestDouble (n : Nat) : Nat :=
  let unit := Nat.pow 2 (n.log2 - 52)
  let below := n / unit
  let excess := 2 * (n % unit)
  if excess < unit ∨ (excess = unit ∧ below % 2 = 0) then below * unit else (below + 1) * unit

def withDigit (value : Nat) (digit : Char) : Nat :=
  10 * value + (digit.toNat - 48)

def decimalValue (digits : List Char) : Nat :=
  digits.foldl withDigit 0

namespace Magnitude

/-- Digits before the point, the first of which are already counted.  From the first one that
does not fit, each stands for a power of ten alone. -/
def ofWhole (significand : Nat) : List Char → Magnitude
  | [] => ⟨significand, 0⟩
  | digit :: rest =>
      if withDigit significand digit < UInt64.size then ofWhole (withDigit significand digit) rest
      else ⟨significand, rest.length + 1⟩

/-- Digits after the point count until one does not fit. -/
def appendFraction (magnitude : Magnitude) : List Char → Magnitude
  | [] => magnitude
  | digit :: rest =>
      if withDigit magnitude.significand digit < UInt64.size then
        appendFraction ⟨withDigit magnitude.significand digit, magnitude.exponent - 1⟩ rest
      else magnitude

def scale (magnitude : Magnitude) (power : Int) : Magnitude :=
  { magnitude with exponent := magnitude.exponent + power }

/-- A product that lies half a step or more above the largest double is out of reach. -/
def isFinite (magnitude : Magnitude) : Bool :=
  magnitude.significand == 0 || magnitude.exponent < 0 ||
    (magnitude.exponent ≤ 308 &&
      nearestDouble magnitude.significand * nearestDouble (Nat.pow 10 magnitude.exponent.toNat) <
        Nat.pow 2 1024 - Nat.pow 2 970)

end Magnitude

end RigLowering.Json
