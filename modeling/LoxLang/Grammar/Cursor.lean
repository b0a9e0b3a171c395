import LoxLang.Grammar.Cause
import LoxLang.Syntax.Tree

/-!
Reading tokens. A reader works on the tokens ahead, none of which ends the input, hands out identities
and keeps the errors that do not stop it. What fails has still read the tokens before the failure.
-/

namespace LoxLang.Grammar

structure Cursor where
  ahead : List Token
  nextId : Identity
  errors : List SyntaxError

/-- A reader of tokens, stopped by the first error that it does not just record. -/
abbrev Reader := EStateM SyntaxError Cursor

/-- The next token, if the input does not end here. -/
def next? : Reader (Option Token) := do
  return (← get).ahead.head?

def atEnd : Reader Bool := do
  return (← get).ahead.isEmpty

/-- Whether the next token is of the given kind. -/
def sees (kind : Kind) : Reader Bool := do
  return (← get).ahead.head?.any (·.kind == kind)

/-- Passes over the next token. -/
def skip : Reader Unit :=
  modify fun c => { c with ahead := c.ahead.tail }

/-- Takes the next token if it satisfies a test. -/
def takeIf (test : Kind → Bool) : Reader (Option Token) := do
  match ← next? with
  | some t => if test t.kind then skip; return some t else return none
  | none => return none

/-- Takes the next token if it is of the given kind, and tells whether it did. -/
def accept (kind : Kind) : Reader Bool := do
  return (← takeIf (· == kind)).isSome

/-- Fails at the next token. -/
def refuse {α : Type} (cause : SyntaxCause) : Reader α := do
  throw ⟨← next?, cause⟩

/-- Takes the next token, which has to be of the given kind. -/
def expect (kind : Kind) (cause : SyntaxCause) : Reader Token := do
  match ← takeIf (· == kind) with
  | some t => return t
  | none => refuse cause

/-- Keeps an error and goes on. -/
def record (e : SyntaxError) : Reader Unit :=
  modify fun c => { c with errors := c.errors ++ [e] }

/-- Hands out the next identity. -/
def fresh : Reader Identity :=
  modifyGet fun c => (c.nextId, { c with nextId := c.nextId + 1 })

/-- Names a binding by a token, with an identity of its own. -/
def reference (name : Token) : Reader Reference := do
  return ⟨← fresh, name⟩

/-- The most parameters and arguments that go without complaint. -/
def maxArguments : Nat :=
  255

end LoxLang.Grammar
