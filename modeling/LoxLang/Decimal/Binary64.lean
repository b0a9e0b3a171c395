/-!
Binary64 numbers as integers. A non-negative number is named by its magnitude, the 63 bits below the
sign, and magnitudes are ordered as the numbers they name. `units` gives the number as a multiple of
the smallest positive one, `2 ^ -1074`; the magnitude of infinity gets the value that the next number
would have. Rounding a quotient is then the search for the nearest magnitude, a tie going to the even
one: overflow, subnormal numbers and the narrower gap below a power of two are no cases of their own.
-/

namespace LoxLang.Decimal

/-- The number one, in units. -/
def one : Nat := Nat.pow 2 1074

/-- The number of magnitudes that share an exponent. -/
def binade : Nat := 0x10000000000000

/-- The magnitude of infinity; those above it are not numbers. -/
def infinity : Nat := 0x7ff0000000000000

/-- The bit above the magnitude. -/
def signBit : Nat := 0x8000000000000000

/-- The number that a magnitude names, in units. -/
def units (mag : Nat) : Nat :=
  if mag / binade = 0 then mag % binade
  else (mag % binade + binade) * Nat.pow 2 (mag / binade - 1)

/-- The greatest magnitude that names at most `u` units, were magnitudes unbounded. -/
def magnitudeBelow (u : Nat) : Nat :=
  (u.log2 - 52) * binade + u / Nat.pow 2 (u.log2 - 52)

/-- The magnitude nearest to `num / den`. -/
def nearest (num den : Nat) : Nat :=
  let low := magnitudeBelow (num * one / den)
  if infinity ≤ low then infinity
  else
    let twice := 2 * (num * one)
    let middle := (units low + units (low + 1)) * den
    if twice < middle ∨ (twice = middle ∧ low % 2 = 0) then low else low + 1

/-- The magnitude of a number. -/
def magnitude (x : Float) : Nat :=
  x.toBits.toNat % signBit

/-- Whether the sign bit is set. -/
def isNegative (x : Float) : Bool :=
  decide (signBit ≤ x.toBits.toNat)

/-- The non-negative number of a magnitude. -/
def ofMagnitude (mag : Nat) : Float :=
  Float.ofBits (UInt64.ofNat mag)

/-- Whether a finite magnitude names an integer. -/
def isWhole (mag : Nat) : Bool :=
  units mag % one == 0

/-- The integer part of a finite magnitude. -/
def wholePart (mag : Nat) : Nat :=
  units mag / one

end LoxLang.Decimal
