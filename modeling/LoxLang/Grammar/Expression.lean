import LoxLang.Grammar.Cursor

/-!
The rules for expressions. Where a rule contains itself, at any distance, a token has been read before;
`Rules` holds the readers for those places, and `bound` a number of tokens that is not exceeded by what
a rule may still read, so that it bounds repetitions as well. Below, each rule is given by its readers
for the places inside.

    assignment  → or ( "=" assignment )?          the left side a name or a property
    or          → and ( "or" and )*
    and         → equality ( "and" equality )*
    equality    → comparison ( ( "!=" | "==" ) comparison )*
    comparison  → term ( ( ">" | ">=" | "<" | "<=" ) term )*
    term        → factor ( ( "-" | "+" ) factor )*
    factor      → unary ( ( "/" | "*" ) unary )*
    unary       → ( "!" | "-" ) unary | call
    call        → primary ( "(" arguments? ")" | "." IDENTIFIER )*
    primary     → NUMBER | STRING | "true" | "false" | "nil" | "this" | IDENTIFIER
                | "(" assignment ")" | "super" "." IDENTIFIER | "fun" "(" parameters? ")" block
-/

namespace LoxLang.Grammar

/-- Readers for the places where a rule contains itself. -/
structure Rules where
  bound : Nat
  expression : Reader Expr
  unary : Reader Expr
  statement : Reader Stmt
  declaration : Reader (Option Stmt)

/-- Extends an operand by the operators and operands that follow it, grouping to the left. -/
def extend (isOperator : Kind → Bool) (build : Expr → Token → Expr → Expr)
    (operand : Reader Expr) : Nat → Expr → Reader Expr
  | 0, e => return e
  | n + 1, e => do
    match ← takeIf isOperator with
    | some operator => extend isOperator build operand n (build e operator (← operand))
    | none => return e

/-- Operands joined by operators of one level. -/
def level (bound : Nat) (isOperator : Kind → Bool) (build : Expr → Token → Expr → Expr)
    (operand : Reader Expr) : Reader Expr := do
  extend isOperator build operand bound (← operand)

/-- Names separated by commas, `count` of them read before. -/
def parameterNames : Nat → Nat → Reader (List Token)
  | 0, _ => refuse .noParameterName
  | n + 1, count => do
    if maxArguments ≤ count then record ⟨← next?, .tooManyParameters⟩
    let name ← expect .identifier .noParameterName
    if ← accept .comma then return name :: (← parameterNames n (count + 1)) else return [name]

/-- Expressions separated by commas, `count` of them read before. -/
def argumentValues (expression : Reader Expr) : Nat → Nat → Reader (List Expr)
  | 0, _ => refuse .noExpression
  | n + 1, count => do
    if maxArguments ≤ count then record ⟨← next?, .tooManyArguments⟩
    let value ← expression
    if ← accept .comma then
      return value :: (← argumentValues expression n (count + 1))
    else return [value]

/-- Declarations up to a closing brace or the end. -/
def declarations (declaration : Reader (Option Stmt)) : Nat → Reader (List Stmt)
  | 0 => return []
  | n + 1 => do
    if (← sees .rightBrace) || (← atEnd) then return []
    else
      let first ← declaration
      return first.toList ++ (← declarations declaration n)

/-- What follows the opening brace of a block. -/
def block (r : Rules) : Reader (List Stmt) := do
  let body ← declarations r.declaration r.bound
  let _ ← expect .rightBrace .noBlockEnd
  return body

/-- What follows the opening parenthesis of a function: parameters and body. -/
def functionRest (r : Rules) (form : FunctionForm) (name : Option Token) (line : Nat) :
    Reader FunctionDecl := do
  let params ← if ← sees .rightParen then pure [] else parameterNames (r.bound + 1) 0
  let _ ← expect .rightParen .noParameterListEnd
  let _ ← expect .leftBrace (.noFunctionBody form)
  return .mk name line params (← block r)

def primary (r : Rules) : Reader Expr := do
  match ← next? with
  | none => refuse .noExpression
  | some t =>
    match t.kind with
    | .kwFalse => skip; return .literal (.bool false)
    | .kwTrue => skip; return .literal (.bool true)
    | .kwNil => skip; return .literal .nil
    | .number => skip; return .literal (.number (Decimal.read t.lexeme))
    | .string => skip; return .literal (.text t.unquoted)
    | .kwThis => skip; return .this (← reference t)
    | .identifier => skip; return .ident (← reference t)
    | .kwSuper =>
      skip
      let _ ← expect .dot .noSuperDot
      let method ← expect .identifier .noSuperMethod
      return .super (← reference t) method
    | .kwFun =>
      skip
      let _ ← expect .leftParen .noAnonymousParameterList
      return .function (← functionRest r .function none t.line)
    | .leftParen =>
      skip
      let inner ← r.expression
      let _ ← expect .rightParen .noGroupEnd
      return .group inner
    | _ => refuse .noExpression

/-- What follows the opening parenthesis of a call. -/
def callRest (r : Rules) (callee : Expr) : Reader Expr := do
  let arguments ← if ← sees .rightParen then pure [] else argumentValues r.expression (r.bound + 1) 0
  let paren ← expect .rightParen .noArgumentsEnd
  return .call callee paren arguments

/-- The calls and properties that follow an expression. -/
def suffixes (r : Rules) : Nat → Expr → Reader Expr
  | 0, e => return e
  | n + 1, e => do
    if ← accept .leftParen then suffixes r n (← callRest r e)
    else if ← accept .dot then
      suffixes r n (.get e (← expect .identifier .noPropertyName))
    else return e

def call (r : Rules) : Reader Expr := do
  suffixes r r.bound (← primary r)

def unary (r : Rules) : Reader Expr := do
  match ← takeIf fun k => k == .bang || k == .minus with
  | some operator => return .unary operator (← r.unary)
  | none => call r

def factor (r : Rules) : Reader Expr :=
  level r.bound (fun k => k == .slash || k == .star) .binary (unary r)

def term (r : Rules) : Reader Expr :=
  level r.bound (fun k => k == .minus || k == .plus) .binary (factor r)

def comparison (r : Rules) : Reader Expr :=
  level r.bound
    (fun k => k == .greater || k == .greaterEqual || k == .less || k == .lessEqual) .binary (term r)

def equality (r : Rules) : Reader Expr :=
  level r.bound (fun k => k == .bangEqual || k == .equalEqual) .binary (comparison r)

def conjunction (r : Rules) : Reader Expr :=
  level r.bound (· == .kwAnd) .logical (equality r)

def disjunction (r : Rules) : Reader Expr :=
  level r.bound (· == .kwOr) .logical (conjunction r)

/-- An assignment or an expression of the levels below. A left side that cannot be assigned to is
recorded at the equals sign and stands for the whole. -/
def assignment (r : Rules) : Reader Expr := do
  let target ← disjunction r
  match ← takeIf (· == .equal) with
  | none => return target
  | some equals =>
    let value ← r.expression
    match target with
    | .ident ref => return .assign (← reference ref.name) value
    | .get object name => return .set object name value
    | other =>
      record ⟨some equals, .invalidTarget⟩
      return other

end LoxLang.Grammar
