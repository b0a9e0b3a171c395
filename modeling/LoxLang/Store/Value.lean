import LoxLang.Decimal.Layout

/-!
Run-time values. Numbers, texts and the like are held in place; functions, classes and instances are
addresses in the heap, so that two values are the same object exactly if their addresses agree.
-/

namespace LoxLang

/-- Addresses of each sort of heap object count up from zero. -/
abbrev Address := Nat

inductive Value where
  | nil
  | bool (b : Bool)
  | number (x : Float)
  | text (s : String)
  /-- A host function, by its place among the natives. -/
  | native (index : Nat)
  | function (address : Address)
  | classRef (address : Address)
  | object (address : Address)
deriving Inhabited

namespace Value

/-- Everything but `nil` and `false` counts as true. -/
def isTruthy : Value → Bool
  | nil => false
  | bool b => b
  | _ => true

/-- Equality in the language: without conversion, and by identity for heap objects. -/
def same : Value → Value → Bool
  | nil, nil => true
  | bool a, bool b => a == b
  | number x, number y => x == y
  | text s, text t => s == t
  | native i, native j => i == j
  | function a, function b => a == b
  | classRef a, classRef b => a == b
  | object a, object b => a == b
  | _, _ => false

end Value

/-- Numbers as programs print them: whole numbers with all their digits and no point, others plain. -/
def numberText (x : Float) : String :=
  Decimal.signed x fun mag =>
    if Decimal.isWhole mag then Decimal.wholeDigits mag else Decimal.plain.finiteText mag

end LoxLang
