import LoxLang.Token.Basic
import LoxLang.Token.Segment

/-!
The items of a source text: its tokens and, in their places, the lexical errors, closed by one token
for the end. Blanks and comments yield no item. An item's line is the one on which its segment ends.
-/

namespace LoxLang

inductive LexicalCause where
  | unexpectedCharacter (c : Char)
  | unterminatedString
deriving DecidableEq

def LexicalCause.message : LexicalCause → String
  | unexpectedCharacter c => "Unexpected character: " ++ String.singleton c
  | unterminatedString => "Unterminated string."

structure LexicalError where
  line : Nat
  cause : LexicalCause
deriving DecidableEq

inductive Item where
  | token (t : Token)
  | error (e : LexicalError)
deriving DecidableEq

def newlines (text : List Char) : Nat :=
  text.count '\n'

/-- What a segment that ends on `line` contributes. -/
def Segment.item? (line : Nat) : Segment → Option Item
  | .blank _ => none
  | .comment _ => none
  | .lexeme kind text => some (.token ⟨kind, String.ofList text, line⟩)
  | .stray c => some (.error ⟨line, .unexpectedCharacter c⟩)
  | .unclosed _ => some (.error ⟨line, .unterminatedString⟩)

/-- The items of segments that begin on `line`. -/
def itemsFrom (line : Nat) : List Segment → List Item
  | [] => [.token (Token.eof line)]
  | s :: rest =>
    let last := line + newlines s.text
    (s.item? last).toList ++ itemsFrom last rest

/-- The items of a source text. -/
def scan (source : String) : List Item :=
  itemsFrom 1 (segments source.toList)

def tokensOf (items : List Item) : List Token :=
  items.filterMap fun
    | .token t => some t
    | .error _ => none

def lexicalErrorsOf (items : List Item) : List LexicalError :=
  items.filterMap fun
    | .token _ => none
    | .error e => some e

end LoxLang
