import LoxLang.Decimal.Binary64

/-!
Reading unsigned decimal texts of the form `digits` or `digits.digits`. The digits make one integer
and the length of the fraction the power of ten that divides it; the number is the nearest to that
quotient.
-/

namespace LoxLang.Decimal

/-- The integer that a text of decimal digits denotes, behind the digits read before. -/
def readDigits (acc : Nat) : List Char → Nat
  | [] => acc
  | c :: cs => readDigits (10 * acc + (c.toNat - '0'.toNat)) cs

/-- The magnitude that a text denotes. -/
def readMagnitude (text : List Char) : Nat :=
  let whole := text.takeWhile Char.isDigit
  let fraction := (text.dropWhile Char.isDigit).drop 1
  nearest (readDigits (readDigits 0 whole) fraction) (Nat.pow 10 fraction.length)

/-- The number that a text denotes. -/
def read (text : String) : Float :=
  ofMagnitude (readMagnitude text.toList)

end LoxLang.Decimal
