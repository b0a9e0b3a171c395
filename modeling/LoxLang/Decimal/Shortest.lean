import LoxLang.Decimal.Binary64

/-!
The shortest decimal of a binary64 number. A numeral `digits * 10 ^ exponent` reads as the magnitude
nearest to it. `shortest` looks for one that reads back on coarser grids before finer ones; on each
grid only the two neighbours of the number can qualify, and of two that do the nearer is taken. The
number's own exact expansion, which reads back as well, closes the search.
-/

namespace LoxLang.Decimal

/-- The decimal number `digits * 10 ^ exponent`. -/
structure Numeral where
  digits : Nat
  exponent : Int
deriving DecidableEq

namespace Numeral

def numerator (n : Numeral) : Nat :=
  n.digits * Nat.pow 10 n.exponent.toNat

def denominator (n : Numeral) : Nat :=
  Nat.pow 10 (-n.exponent).toNat

/-- The magnitude that a numeral reads as. -/
def reading (n : Numeral) : Nat :=
  nearest n.numerator n.denominator

/-- Drops one trailing zero, all that the first numeral found can have. -/
def trimmed (n : Numeral) : Numeral :=
  if n.digits % 10 = 0 then ⟨n.digits / 10, n.exponent + 1⟩ else n

end Numeral

/-- Where a number halfway between two neighbours on a decimal grid goes. -/
inductive Tie where
  | up
  | even
deriving DecidableEq

/-- The exact decimal expansion of a magnitude. -/
def exact (mag : Nat) : Numeral :=
  ⟨units mag * Nat.pow 5 1074, -1074⟩

/-- The exponent of the leading decimal digit of a positive magnitude. -/
def order (mag : Nat) : Int :=
  ((Nat.toDigits 10 (units mag * Nat.pow 10 340 / one)).length : Int) - 341

/-- How many times `10 ^ exponent` goes into a positive magnitude. -/
def floorOn (mag : Nat) (exponent : Int) : Nat :=
  units mag * Nat.pow 10 (-exponent).toNat / (one * Nat.pow 10 exponent.toNat)

/-- Whether the grid point above a magnitude is to be preferred to the one below. -/
def prefersUpper (tie : Tie) (mag : Nat) (exponent : Int) : Bool :=
  let low := floorOn mag exponent
  let twice := 2 * (units mag * Nat.pow 10 (-exponent).toNat)
  let middle := (2 * low + 1) * (one * Nat.pow 10 exponent.toNat)
  if twice = middle then
    match tie with
    | .up => true
    | .even => low % 2 == 1
  else decide (middle < twice)

/-- The neighbour of a magnitude on the grid of multiples of `10 ^ exponent` that reads back, the
preferred one if both do. -/
def onGrid (tie : Tie) (mag : Nat) (exponent : Int) : Option Numeral :=
  let low : Numeral := ⟨floorOn mag exponent, exponent⟩
  let high : Numeral := ⟨floorOn mag exponent + 1, exponent⟩
  let (first, second) := if prefersUpper tie mag exponent then (high, low) else (low, high)
  if first.reading = mag then some first
  else if second.reading = mag then some second
  else none

/-- A numeral with the fewest digits that reads back as a positive finite magnitude, and the nearest
to it of these. -/
def shortest (tie : Tie) (mag : Nat) : Numeral :=
  match (List.range 17).findSome? fun (i : Nat) => onGrid tie mag (order mag - i) with
  | some n => n.trimmed
  | none => exact mag

end LoxLang.Decimal
