import LoxLang.Eval.Machine
import LoxLang.Grammar.Cause
import LoxLang.Token.Scan

/-!
Diagnostics: everything that can be reported about a program, each with its line, the message handed to
whoever collects reports, and a text that stands alone.
-/

namespace LoxLang

inductive Diagnostic where
  | lexical (line : Nat) (cause : LexicalCause)
  | grammatical (token : Token) (cause : SyntaxCause)
  | static (token : Token) (cause : Scope.Cause)
  | runtime (line : Nat) (cause : RuntimeCause)
  /-- A failure of the host, which has no place in the program. -/
  | host (message : String)
deriving DecidableEq

namespace Diagnostic

def line : Diagnostic → Nat
  | lexical line _ => line
  | grammatical token _ => token.line
  | static token _ => token.line
  | runtime line _ => line
  | host _ => 0

/-- The message without the line. -/
def message : Diagnostic → String
  | lexical _ cause => "Error: " ++ cause.message
  | grammatical token cause => "Error" ++ token.location ++ ": " ++ cause.message
  | static token cause => "Error" ++ token.location ++ ": " ++ cause.message
  | runtime _ cause => cause.message
  | host message => message

/-- The line as reports show it. -/
def lineMark (line : Nat) : String :=
  "[line " ++ toString line ++ "]"

/-- The diagnostic as one text: run-time errors have their line last, failures of the host none. -/
def display : Diagnostic → String
  | runtime line cause => cause.message ++ "\n" ++ lineMark line
  | host message => message
  | d => lineMark d.line ++ " " ++ d.message

/-- The diagnostic as it is reported on a line of its own. -/
def reported (d : Diagnostic) : String :=
  lineMark d.line ++ " " ++ d.message

def ofLexical (e : LexicalError) : Diagnostic :=
  .lexical e.line e.cause

/-- A syntax error in an input whose last token is `last`. -/
def ofSyntax (last : Token) (e : SyntaxError) : Diagnostic :=
  .grammatical (e.found.getD last) e.cause

def ofStatic (e : Scope.StaticError) : Diagnostic :=
  .static e.token e.cause

/-- What a fault reports; being out of fuel is no report. -/
def ofFault? : Fault → Option Diagnostic
  | .runtime e => some (.runtime e.line e.cause)
  | .output message => some (.host message)
  | .outOfFuel => none

end Diagnostic

end LoxLang
