import LoxLang.Grammar.Statement
import LoxLang.Token.Scan

/-!
Programs and single expressions. `rules n` closes the rules over themselves for inputs of fewer than
`n` tokens; since every rule reads a token before it comes back to itself, `n` is no restriction on
what can be read.
-/

namespace LoxLang.Grammar

/-- The rules for inputs of fewer than `n` tokens. -/
def rules : Nat → Rules
  | 0 => ⟨0, refuse .noExpression, refuse .noExpression, refuse .noExpression, refuse .noExpression⟩
  | n + 1 =>
    let inner := rules n
    ⟨n + 1, assignment inner, unary inner, statement inner, declaration inner⟩

/-- The outcome of reading: a tree or all errors found, and the next identity either way. -/
structure Reading (α : Type) where
  result : Except (List SyntaxError) α
  nextId : Identity

/-- The tokens before the end of the input. -/
def beforeEnd (tokens : List Token) : List Token :=
  tokens.takeWhile (·.kind != .eof)

/-- Reads all of the tokens, and takes what was recorded on the way for failure. -/
def readAll {α : Type} (read : Reader α) (tokens : List Token) (firstId : Identity) : Reading α :=
  match read ⟨beforeEnd tokens, firstId, []⟩ with
  | .ok a c => ⟨if c.errors.isEmpty then .ok a else .error c.errors, c.nextId⟩
  | .error e c => ⟨.error (c.errors ++ [e]), c.nextId⟩

/-- At most `n` declarations, up to the end. -/
def program (declaration : Reader (Option Stmt)) : Nat → Reader (List Stmt)
  | 0 => do
    if ← atEnd then return [] else refuse .noExpression
  | n + 1 => do
    if ← atEnd then return []
    else
      let first ← declaration
      return first.toList ++ (← program declaration n)

/-- An expression with nothing behind it. -/
def wholeExpression (expression : Reader Expr) : Reader Expr := do
  let e ← expression
  if ← atEnd then return e else refuse .noEndOfExpression

/-- Reads a program, its identities counted from `firstId`. -/
def parseProgram (tokens : List Token) (firstId : Identity) : Reading (List Stmt) :=
  let length := (beforeEnd tokens).length
  readAll (program (rules (length + 1)).declaration length) tokens firstId

/-- Reads a single expression, its identities counted from `firstId`. -/
def parseExpression (tokens : List Token) (firstId : Identity) : Reading Expr :=
  let length := (beforeEnd tokens).length
  readAll (wholeExpression (rules (length + 1)).expression) tokens firstId

end LoxLang.Grammar
