import LoxLang.Diagnostic
import LoxLang.Grammar.Program

/-!
Reading source text as a program or as a single expression. What scans is parsed even when some of the
text does not scan, so that both kinds of errors come out of one reading.
-/

namespace LoxLang

/-- What a source text reads as. -/
structure Source (α : Type) where
  lexical : List Diagnostic
  parsed : Except (List Diagnostic) α
  /-- The next identity, past those that the reading has used. -/
  nextId : Identity

namespace Source

variable {α : Type}

/-- The last of a list of tokens, which stands for the end of the input. -/
def endToken (tokens : List Token) : Token :=
  tokens.getLastD (Token.eof 1)

/-- Scans a text and parses its tokens. -/
def read (parse : List Token → Identity → Grammar.Reading α) (text : String) (firstId : Identity) :
    Source α :=
  let items := scan text
  let tokens := tokensOf items
  let reading := parse tokens firstId
  { lexical := (lexicalErrorsOf items).map .ofLexical
    parsed := reading.result.mapError fun es => es.map (.ofSyntax (endToken tokens))
    nextId := reading.nextId }

def program (text : String) (firstId : Identity) : Source (List Stmt) :=
  read Grammar.parseProgram text firstId

def expression (text : String) (firstId : Identity) : Source Expr :=
  read Grammar.parseExpression text firstId

/-- All errors of a reading, the lexical ones first. -/
def errors (s : Source α) : List Diagnostic :=
  s.lexical ++
    match s.parsed with
    | .ok _ => []
    | .error es => es

/-- The tree of a text without errors. -/
def tree? (s : Source α) : Option α :=
  match s.lexical, s.parsed with
  | [], .ok a => some a
  | _, _ => none

end Source

end LoxLang
