import LoxLang.Decimal.Layout
import LoxLang.Decimal.Reading
import LoxLang.Token.Kind

/-!
Tokens. A token is its kind, the text that it was read from and the line on which that text ends; the
string or number that it denotes is a function of these.
-/

namespace LoxLang

structure Token where
  kind : Kind
  lexeme : String
  line : Nat
deriving DecidableEq, Inhabited

/-- What a literal token denotes. -/
inductive Payload where
  | text (s : String)
  | number (x : Float)

namespace Token

/-- The text between the quotes of a string token. -/
def unquoted (t : Token) : String :=
  String.ofList (t.lexeme.toList.drop 1).dropLast

def payload (t : Token) : Option Payload :=
  match t.kind with
  | .string => some (.text t.unquoted)
  | .number => some (.number (Decimal.read t.lexeme))
  | _ => none

/-- Only strings and numbers denote anything. -/
theorem payload_of_ne {kind : Kind} (h : kind ≠ .string ∧ kind ≠ .number) {lexeme : String}
    {line : Nat} : (Token.mk kind lexeme line).payload = none := by
  unfold payload
  split
  case h_1 hkind => exact absurd hkind h.1
  case h_2 hkind => exact absurd hkind h.2
  case h_3 => rfl

/-- The token that ends an input whose last line is `line`. -/
def eof (line : Nat) : Token :=
  ⟨.eof, "", line⟩

/-- Where a token stands, as diagnostics name it. -/
def location (t : Token) : String :=
  if t.kind = .eof then " at end" else " at '" ++ t.lexeme ++ "'"

/-- Numbers in listings: whole numbers below `10 ^ 15` end in `.0` and have no sign at zero, all
others are plain. -/
def numberText (x : Float) : String :=
  let mag := Decimal.magnitude x
  if mag < Decimal.infinity ∧ Decimal.isWhole mag ∧ Decimal.wholePart mag < Nat.pow 10 15 then
    (if Decimal.isNegative x && decide (mag ≠ 0) then "-" else "") ++ Decimal.wholeDigits mag ++ ".0"
  else Decimal.plain.text x

def payloadText : Option Payload → String
  | none => "null"
  | some (.text s) => s
  | some (.number x) => numberText x

/-- A token's entry in a listing, were it to denote `value`. -/
def listing (t : Token) (value : Option Payload) : String :=
  t.kind.name ++ " " ++ t.lexeme ++ " " ++ payloadText value

/-- A token's entry in a listing. -/
def display (t : Token) : String :=
  t.listing t.payload

end Token

end LoxLang
