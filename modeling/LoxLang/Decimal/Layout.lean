import LoxLang.Decimal.Shortest

/-!
How numbers are laid out as text. `positional` and `scientific` write a numeral's digits; a `Layout`
collects the decisions of one output format, and `Layout.text` applies them to a number. Every layout
writes the digits of `shortest`; `wholeDigits` writes an integer in full instead.
-/

namespace LoxLang.Decimal

def digitsOf (n : Nat) : String :=
  String.ofList (Nat.toDigits 10 n)

def zeros (n : Nat) : String :=
  String.ofList (List.replicate n '0')

/-- How many digits of a numeral stand before the decimal point; negative if zeros follow it. -/
def Numeral.point (n : Numeral) : Int :=
  ((Nat.toDigits 10 n.digits).length : Int) + n.exponent

/-- Digits without an exponent, padded with zeros on either side; `0.` leads a fraction. -/
def positional (n : Numeral) : String :=
  let ds := Nat.toDigits 10 n.digits
  if 0 ≤ n.exponent then String.ofList ds ++ zeros n.exponent.toNat
  else if 0 < n.point then
    String.ofList (ds.take n.point.toNat) ++ "." ++ String.ofList (ds.drop n.point.toNat)
  else "0." ++ zeros (-n.point).toNat ++ String.ofList ds

def exponentText (plus : Bool) (e : Int) : String :=
  if e < 0 then "-" ++ digitsOf (-e).toNat
  else (if plus then "+" else "") ++ digitsOf e.toNat

/-- One digit before the point, the others behind it, and a power of ten. -/
def scientific (plus : Bool) (n : Numeral) : String :=
  let e := exponentText plus (n.point - 1)
  match Nat.toDigits 10 n.digits with
  | [] => "0e" ++ e
  | [d] => String.ofList [d] ++ "e" ++ e
  | d :: ds => String.ofList [d] ++ "." ++ String.ofList ds ++ "e" ++ e

/-- The decisions of a format. -/
structure Layout where
  tie : Tie
  /-- Whether a number whose leading digit has this exponent is written positionally. -/
  isPositional : Int → Bool
  /-- Whether whole numbers end in `.0` when written positionally. -/
  keepsPoint : Bool
  /-- Whether an exponent that is not negative has a plus sign. -/
  plus : Bool

/-- The text of a finite magnitude. -/
def Layout.finiteText (l : Layout) (mag : Nat) : String :=
  if mag = 0 then (if l.keepsPoint then "0.0" else "0")
  else
    let n := shortest l.tie mag
    if l.isPositional (n.point - 1) then
      positional n ++ (if l.keepsPoint && decide (0 ≤ n.exponent) then ".0" else "")
    else scientific l.plus n

/-- Writes the sign of a number before the text of its magnitude; what is not finite has a fixed
text. -/
def signed (x : Float) (finite : Nat → String) : String :=
  let mag := magnitude x
  if infinity < mag then "NaN"
  else (if isNegative x then "-" else "") ++ (if mag = infinity then "inf" else finite mag)

def Layout.text (l : Layout) (x : Float) : String :=
  signed x l.finiteText

/-- All digits of a whole magnitude, however many. -/
def wholeDigits (mag : Nat) : String :=
  digitsOf (wholePart mag)

/-- The plain layout: the shortest digits, never an exponent, no point in whole numbers. -/
def plain : Layout :=
  ⟨.up, fun _ => true, false, false⟩

end LoxLang.Decimal
