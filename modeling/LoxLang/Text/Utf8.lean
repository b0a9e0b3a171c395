/-!
Decoding UTF-8. A text is refused at the first byte that begins no character, with the number of bytes
there that can be taken for the beginning of one, or as incomplete if the input ends inside a character.
-/

namespace LoxLang.Utf8

/-- Why bytes are no text. -/
inductive Malformed where
  | invalid (length index : Nat)
  | incomplete (index : Nat)
deriving DecidableEq

def Malformed.message : Malformed → String
  | invalid length index =>
    "invalid utf-8 sequence of " ++ toString length ++ " bytes from index " ++ toString index
  | incomplete index => "incomplete utf-8 byte sequence from index " ++ toString index

/-- How a byte begins a character: alone, or with the given number of bytes behind it, the first of
which is in a range; `none` if it begins none. -/
structure Lead where
  bits : Nat
  following : Nat
  least : Nat
  greatest : Nat

/-- The bounds on the second byte leave out overlong forms, surrogates and what lies past the last
code point. -/
def lead? (b : Nat) : Option Lead :=
  if b < 0x80 then some ⟨b, 0, 0, 0⟩
  else if b < 0xC2 then none
  else if b < 0xE0 then some ⟨b - 0xC0, 1, 0x80, 0xBF⟩
  else if b = 0xE0 then some ⟨0, 2, 0xA0, 0xBF⟩
  else if b = 0xED then some ⟨0xD, 2, 0x80, 0x9F⟩
  else if b < 0xF0 then some ⟨b - 0xE0, 2, 0x80, 0xBF⟩
  else if b = 0xF0 then some ⟨0, 3, 0x90, 0xBF⟩
  else if b < 0xF4 then some ⟨b - 0xF0, 3, 0x80, 0xBF⟩
  else if b = 0xF4 then some ⟨4, 3, 0x80, 0x8F⟩
  else none

/-- A decoder between two bytes. -/
inductive State where
  | between
  /-- Inside a character that began at `start`: the bits read, the bytes read and to be read, and the
  bounds on the next byte. -/
  | inside (start bits length missing least greatest : Nat)

/-- Decodes the bytes from `index` on. -/
def decodeFrom (index : Nat) : State → List UInt8 → Except Malformed (List Char)
  | .between, [] => .ok []
  | .inside start _ _ _ _ _, [] => .error (.incomplete start)
  | .between, b :: rest =>
    match lead? b.toNat with
    | none => .error (.invalid 1 index)
    | some l =>
      if l.following = 0 then (decodeFrom (index + 1) .between rest).map (Char.ofNat l.bits :: ·)
      else decodeFrom (index + 1) (.inside index l.bits 1 l.following l.least l.greatest) rest
  | .inside start bits length missing least greatest, b :: rest =>
    if b.toNat < least ∨ greatest < b.toNat then .error (.invalid length start)
    else
      let bits := 64 * bits + (b.toNat - 0x80)
      if missing ≤ 1 then (decodeFrom (index + 1) .between rest).map (Char.ofNat bits :: ·)
      else decodeFrom (index + 1) (.inside start bits (length + 1) (missing - 1) 0x80 0xBF) rest

/-- The text that bytes encode. -/
def decode (bytes : List UInt8) : Except Malformed String :=
  (decodeFrom 0 .between bytes).map String.ofList

end LoxLang.Utf8
