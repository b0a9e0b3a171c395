import LoxLang.Decimal.Layout

/-!
JSON values and their two written forms: compact, without any blank, and indented by two blanks a
level. The fields of an object keep their order.
-/

namespace LoxLang

inductive Json where
  | null
  | natural (n : Nat)
  | real (x : Float)
  | text (s : String)
  | array (items : List Json)
  | object (fields : List (String × Json))

namespace Json

def hexDigit (n : Nat) : Char :=
  (Nat.toDigits 16 n).headD '0'

/-- A character inside a quoted text. -/
def quotedChar (c : Char) : List Char :=
  if c = '"' then ['\\', '"']
  else if c = '\\' then ['\\', '\\']
  else if c = '\x08' then ['\\', 'b']
  else if c = '\x0c' then ['\\', 'f']
  else if c = '\n' then ['\\', 'n']
  else if c = '\r' then ['\\', 'r']
  else if c = '\t' then ['\\', 't']
  else if c.toNat < 32 then ['\\', 'u', '0', '0', hexDigit (c.toNat / 16), hexDigit (c.toNat % 16)]
  else [c]

def quoted (s : String) : String :=
  "\"" ++ String.ofList (s.toList.flatMap quotedChar) ++ "\""

/-- A number's text, by a way to write those that are finite; what is not finite is `null`. -/
def realText (finite : Float → String) (x : Float) : String :=
  if Decimal.magnitude x < Decimal.infinity then finite x else "null"

mutual

/-- The compact form, by a way to write finite numbers. -/
def compactBy (finite : Float → String) : Json → String
  | null => "null"
  | natural n => Decimal.digitsOf n
  | real x => realText finite x
  | text s => quoted s
  | array items => "[" ++ compactItemsBy finite items ++ "]"
  | object fields => "\x7b" ++ compactFieldsBy finite fields ++ "\x7d"

def compactItemsBy (finite : Float → String) : List Json → String
  | [] => ""
  | [j] => compactBy finite j
  | j :: rest => compactBy finite j ++ "," ++ compactItemsBy finite rest

def compactFieldsBy (finite : Float → String) : List (String × Json) → String
  | [] => ""
  | [(k, j)] => quoted k ++ ":" ++ compactBy finite j
  | (k, j) :: rest =>
    quoted k ++ ":" ++ compactBy finite j ++ "," ++ compactFieldsBy finite rest

end

/-- Finite numbers have the fewest digits, a point, and an exponent from `1e+16` up and below `0.00001`;
a tie goes to the even digit. -/
def realLayout : Decimal.Layout :=
  ⟨.even, fun e => decide (-5 ≤ e ∧ e ≤ 15), true, true⟩

def compact (j : Json) : String :=
  j.compactBy realLayout.text

def newline (depth : Nat) : String :=
  "\n" ++ String.ofList (List.replicate (2 * depth) ' ')

mutual

def indented (depth : Nat) : Json → String
  | null => "null"
  | natural n => Decimal.digitsOf n
  | real x => realText realLayout.text x
  | text s => quoted s
  | array [] => "[]"
  | array (j :: rest) =>
    "[" ++ newline (depth + 1) ++ indented (depth + 1) j ++ indentedItems (depth + 1) rest ++
      newline depth ++ "]"
  | object [] => "\x7b\x7d"
  | object ((k, j) :: rest) =>
    "\x7b" ++ newline (depth + 1) ++ quoted k ++ ": " ++ indented (depth + 1) j ++
      indentedFields (depth + 1) rest ++ newline depth ++ "\x7d"

def indentedItems (depth : Nat) : List Json → String
  | [] => ""
  | j :: rest => "," ++ newline depth ++ indented depth j ++ indentedItems depth rest

def indentedFields (depth : Nat) : List (String × Json) → String
  | [] => ""
  | (k, j) :: rest =>
    "," ++ newline depth ++ quoted k ++ ": " ++ indented depth j ++ indentedFields depth rest

end

end Json

end LoxLang
