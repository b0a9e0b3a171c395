import LoxLang.Grammar.Program

/-!
Reading by position. The readers of the grammar drop the tokens that they have read and stop before the
end marker, so that there is nothing for them to overrun. Here the same rules move an index through a
list that keeps all of its tokens. What such a reader could do wrong is an outcome: to look outside of
the list, to ask for the token before the first one, and not to end, which is to run out of fuel. Each
look at the current token leaves a note of where the reader stood and of the errors kept so far.
-/

namespace LoxLang.Grammar.Indexed

/-- What is noted at a look. -/
structure Moment where
  position : Nat
  errors : List SyntaxError

/-- A reader's state: `current` is the index of the next token. -/
structure Place where
  tokens : List Token
  current : Nat
  nextId : Identity
  errors : List SyntaxError
  trace : List Moment

/-- Why a reader stops: an error of the text or one of three faults of the reader. -/
inductive Stop where
  | refused (e : SyntaxError)
  | outside
  | beforeFirst
  | outOfFuel

abbrev Parser := EStateM Stop Place

def Place.start (tokens : List Token) (firstId : Identity) : Place :=
  ⟨tokens, 0, firstId, [], []⟩

def Place.moment (p : Place) : Moment :=
  ⟨p.current, p.errors⟩

def Place.noted (p : Place) : Place :=
  { p with trace := p.trace ++ [p.moment] }

/-- An error at a token; at the end marker, it is one at the end of the input. -/
def errorAt (t : Token) (cause : SyntaxCause) : SyntaxError :=
  ⟨if t.kind = .eof then none else some t, cause⟩

/-! ### Single tokens -/

def peek : Parser Token := fun p =>
  match p.tokens[p.current]? with
  | some t => .ok t p.noted
  | none => .error .outside p

/-- The token read last. -/
def previous : Parser Token := fun p =>
  match p.current with
  | 0 => .error .beforeFirst p
  | i + 1 =>
    match p.tokens[i]? with
    | some t => .ok t p
    | none => .error .outside p

def isAtEnd : Parser Bool := do
  return (← peek).kind == .eof

/-- Moves on unless at the end, and gives the token before the new position. -/
def advance : Parser Token := do
  if ← isAtEnd then previous
  else
    modify fun p => { p with current := p.current + 1 }
    previous

def check (kind : Kind) : Parser Bool := do
  if ← isAtEnd then return false else return (← peek).kind == kind

/-- Whether the token behind the next one is of the given kind. That there may be none is no fault. -/
def checkNext (kind : Kind) : Parser Bool := do
  let p ← get
  return p.tokens[p.current + 1]?.any (·.kind == kind)

/-- Takes the next token if it is of the given kind, and tells whether it did. -/
def accept (kind : Kind) : Parser Bool := do
  if ← check kind then
    let _ ← advance
    return true
  else return false

/-- Takes the next token, which has to be of the given kind. -/
def expect (kind : Kind) (cause : SyntaxCause) : Parser Token := do
  if ← check kind then advance else throw (.refused (errorAt (← peek) cause))

def record (e : SyntaxError) : Parser Unit :=
  modify fun p => { p with errors := p.errors ++ [e] }

/-- Names a binding by a token, with the next identity. -/
def reference (name : Token) : Parser Reference :=
  modifyGet fun p => (⟨p.nextId, name⟩, { p with nextId := p.nextId + 1 })

/-! ### Expressions -/

/-- Readers for the places where a rule contains itself; `passes` is the fuel of a repetition. -/
structure Rules where
  passes : Nat
  expression : Parser Expr
  unary : Parser Expr
  statement : Parser Stmt
  declaration : Parser (Option Stmt)

/-- Extends an operand by the rest of a level with a single logical operator. -/
def logicalRest (operator : Kind) (operand : Parser Expr) : Nat → Expr → Parser Expr
  | 0, _ => throw .outOfFuel
  | n + 1, e => do
    if ← accept operator then
      let token ← previous
      logicalRest operator operand n (.logical e token (← operand))
    else return e

/-- Extends an operand by the rest of a level of binary operators. -/
def binaryRest (operators : List Kind) (operand : Parser Expr) : Nat → Expr → Parser Expr
  | 0, _ => throw .outOfFuel
  | n + 1, e => do
    if ← operators.anyM check then
      let token ← advance
      binaryRest operators operand n (.binary e token (← operand))
    else return e

def logicalLevel (passes : Nat) (operator : Kind) (operand : Parser Expr) : Parser Expr := do
  logicalRest operator operand passes (← operand)

def binaryLevel (passes : Nat) (operators : List Kind) (operand : Parser Expr) : Parser Expr := do
  binaryRest operators operand passes (← operand)

def parameterNames : Nat → Nat → Parser (List Token)
  | 0, _ => throw .outOfFuel
  | n + 1, count => do
    if maxArguments ≤ count then record (errorAt (← peek) .tooManyParameters)
    let name ← expect .identifier .noParameterName
    if ← accept .comma then return name :: (← parameterNames n (count + 1)) else return [name]

def argumentValues (expression : Parser Expr) : Nat → Nat → Parser (List Expr)
  | 0, _ => throw .outOfFuel
  | n + 1, count => do
    if maxArguments ≤ count then record (errorAt (← peek) .tooManyArguments)
    let value ← expression
    if ← accept .comma then
      return value :: (← argumentValues expression n (count + 1))
    else return [value]

/-- Whether neither a closing brace nor the end is next. -/
def goesOn : Parser Bool := do
  if ← check .rightBrace then return false else return !(← isAtEnd)

def declarations (declaration : Parser (Option Stmt)) : Nat → Parser (List Stmt)
  | 0 => throw .outOfFuel
  | n + 1 => do
    if ← goesOn then
      let first ← declaration
      return first.toList ++ (← declarations declaration n)
    else return []

def block (r : Rules) : Parser (List Stmt) := do
  let body ← declarations r.declaration r.passes
  let _ ← expect .rightBrace .noBlockEnd
  return body

def functionRest (r : Rules) (form : FunctionForm) (name : Option Token) (line : Nat) :
    Parser FunctionDecl := do
  let params ← if ← check .rightParen then pure [] else parameterNames r.passes 0
  let _ ← expect .rightParen .noParameterListEnd
  let _ ← expect .leftBrace (.noFunctionBody form)
  return .mk name line params (← block r)

def primary (r : Rules) : Parser Expr := do
  let t ← peek
  match t.kind with
  | .kwFalse => let _ ← advance; return .literal (.bool false)
  | .kwTrue => let _ ← advance; return .literal (.bool true)
  | .kwNil => let _ ← advance; return .literal .nil
  | .number => let _ ← advance; return .literal (.number (Decimal.read t.lexeme))
  | .string => let _ ← advance; return .literal (.text t.unquoted)
  | .kwThis =>
    let keyword ← reference t
    let _ ← advance
    return .this keyword
  | .identifier =>
    let name ← reference t
    let _ ← advance
    return .ident name
  | .kwSuper =>
    let _ ← advance
    let _ ← expect .dot .noSuperDot
    let method ← expect .identifier .noSuperMethod
    return .super (← reference t) method
  | .kwFun =>
    let _ ← advance
    let _ ← expect .leftParen .noAnonymousParameterList
    return .function (← functionRest r .function none t.line)
  | .leftParen =>
    let _ ← advance
    let inner ← r.expression
    let _ ← expect .rightParen .noGroupEnd
    return .group inner
  | _ => throw (.refused (errorAt t .noExpression))

def callRest (r : Rules) (callee : Expr) : Parser Expr := do
  let arguments ← if ← check .rightParen then pure [] else argumentValues r.expression r.passes 0
  let paren ← expect .rightParen .noArgumentsEnd
  return .call callee paren arguments

def suffixes (r : Rules) : Nat → Expr → Parser Expr
  | 0, _ => throw .outOfFuel
  | n + 1, e => do
    if ← accept .leftParen then suffixes r n (← callRest r e)
    else if ← accept .dot then
      suffixes r n (.get e (← expect .identifier .noPropertyName))
    else return e

def call (r : Rules) : Parser Expr := do
  suffixes r r.passes (← primary r)

def unary (r : Rules) : Parser Expr := do
  if ← accept .bang <||> accept .minus then
    let operator ← previous
    return .unary operator (← r.unary)
  else call r

def factor (r : Rules) : Parser Expr :=
  binaryLevel r.passes [.slash, .star] (unary r)

def term (r : Rules) : Parser Expr :=
  binaryLevel r.passes [.minus, .plus] (factor r)

def comparison (r : Rules) : Parser Expr :=
  binaryLevel r.passes [.greater, .greaterEqual, .less, .lessEqual] (term r)

def equality (r : Rules) : Parser Expr :=
  binaryLevel r.passes [.bangEqual, .equalEqual] (comparison r)

def conjunction (r : Rules) : Parser Expr :=
  logicalLevel r.passes .kwAnd (equality r)

def disjunction (r : Rules) : Parser Expr :=
  logicalLevel r.passes .kwOr (conjunction r)

def assignment (r : Rules) : Parser Expr := do
  let target ← disjunction r
  if ← accept .equal then
    let equals ← previous
    let value ← r.expression
    match target with
    | .ident ref => return .assign (← reference ref.name) value
    | .get object name => return .set object name value
    | other =>
      record (errorAt equals .invalidTarget)
      return other
  else return target

/-! ### Statements -/

def namedFunction (r : Rules) (form : FunctionForm) : Parser FunctionDecl := do
  let name ← expect .identifier (.noFunctionName form)
  let _ ← expect .leftParen (.noParameterList form)
  functionRest r form (some name) name.line

def methods (r : Rules) : Nat → Parser (List FunctionDecl)
  | 0 => throw .outOfFuel
  | n + 1 => do
    if ← goesOn then
      let first ← namedFunction r .method
      return first :: (← methods r n)
    else return []

def superclass? : Parser (Option Reference) := do
  if ← accept .less then
    return some (← reference (← expect .identifier .noSuperclassName))
  else return none

def classRest (r : Rules) : Parser Stmt := do
  let name ← expect .identifier .noClassName
  let superclass ← superclass?
  let _ ← expect .leftBrace .noClassBody
  let members ← methods r r.passes
  let _ ← expect .rightBrace .noClassEnd
  return .classDecl name superclass members

def variableRest (r : Rules) : Parser Stmt := do
  let name ← expect .identifier .noVariableName
  let initializer ← if ← accept .equal then some <$> assignment r else pure none
  let _ ← expect .semicolon .noVariableEnd
  return .var name initializer

def expressionStatement (r : Rules) : Parser Stmt := do
  let value ← assignment r
  let _ ← expect .semicolon .noStatementEnd
  return .expr value

def forInitializer (r : Rules) : Parser (Option Stmt) := do
  if ← accept .semicolon then return none
  else if ← accept .kwVar then some <$> variableRest r
  else some <$> expressionStatement r

def forRest (r : Rules) : Parser Stmt := do
  let _ ← expect .leftParen .noForClauses
  let initializer ← forInitializer r
  let condition ←
    if ← check .semicolon then pure (.literal (.bool true)) else assignment r
  let _ ← expect .semicolon .noForConditionEnd
  let increment ← if ← check .rightParen then pure none else some <$> assignment r
  let _ ← expect .rightParen .noForClausesEnd
  return forLoop initializer condition increment (← r.statement)

def ifRest (r : Rules) : Parser Stmt := do
  let _ ← expect .leftParen .noIfCondition
  let condition ← assignment r
  let _ ← expect .rightParen .noIfConditionEnd
  let thenBranch ← r.statement
  let elseBranch ← if ← accept .kwElse then some <$> r.statement else pure none
  return .branch condition thenBranch elseBranch

def printRest (r : Rules) : Parser Stmt := do
  let value ← assignment r
  let _ ← expect .semicolon .noPrintEnd
  return .print value

def returnRest (r : Rules) : Parser Stmt := do
  let keyword ← previous
  let value ← if ← check .semicolon then pure none else some <$> assignment r
  let _ ← expect .semicolon .noReturnEnd
  return .ret keyword value

def whileRest (r : Rules) : Parser Stmt := do
  let _ ← expect .leftParen .noWhileCondition
  let condition ← assignment r
  let _ ← expect .rightParen .noWhileConditionEnd
  return .loop condition (← r.statement)

def statement (r : Rules) : Parser Stmt := do
  if ← accept .kwFor then forRest r
  else if ← accept .kwIf then ifRest r
  else if ← accept .kwPrint then printRest r
  else if ← accept .kwReturn then returnRest r
  else if ← accept .kwWhile then whileRest r
  else if ← accept .leftBrace then .block <$> block r
  else expressionStatement r

def seesNamedFunction : Parser Bool := do
  if ← check .kwFun then checkNext .identifier else return false

/-- A declaration, up to its first error. -/
def declared (r : Rules) : Parser Stmt := do
  if ← accept .kwClass then classRest r
  else if ← seesNamedFunction then
    let _ ← advance
    .function <$> namedFunction r .function
  else if ← accept .kwVar then variableRest r
  else statement r

def skipping : Nat → Parser Unit
  | 0 => throw .outOfFuel
  | n + 1 => do
    if ← isAtEnd then return ()
    else if (← previous).kind == .semicolon then return ()
    else if beginsStatement (← peek).kind then return ()
    else
      let _ ← advance
      skipping n

/-- Passes over a token, and then over more up to a place where a statement may begin. -/
def synchronize (passes : Nat) : Parser Unit := do
  let _ ← advance
  skipping passes

/-- Keeps the error that a declaration ends with, and reads on behind it. -/
def declaration (r : Rules) : Parser (Option Stmt) := fun p =>
  match declared r p with
  | .ok s q => .ok (some s) q
  | .error (.refused e) q => (do record e; synchronize r.passes; return none : Parser _) q
  | .error stop q => .error stop q

/-! ### Programs -/

/-- The rules with fuel for `n` levels, none of which makes more than `n` passes. -/
def rules : Nat → Rules
  | 0 => ⟨0, throw .outOfFuel, throw .outOfFuel, throw .outOfFuel, throw .outOfFuel⟩
  | n + 1 =>
    let inner := rules n
    ⟨n + 1, assignment inner, unary inner, statement inner, declaration inner⟩

def program (declaration : Parser (Option Stmt)) : Nat → Parser (List Stmt)
  | 0 => throw .outOfFuel
  | n + 1 => do
    if ← isAtEnd then return []
    else
      let first ← declaration
      return first.toList ++ (← program declaration n)

def wholeExpression (expression : Parser Expr) : Parser Expr := do
  let e ← expression
  if ← isAtEnd then return e else throw (.refused (errorAt (← peek) .noEndOfExpression))

/-- What reading has come to: a tree, or the errors that were kept. -/
def settle {α : Type} (a : α) : Parser (Except (List SyntaxError) α) := fun p =>
  .ok (if p.errors.isEmpty then .ok a else .error p.errors) { p with errors := [] }

def parseProgram (fuel : Nat) : Parser (Except (List SyntaxError) (List Stmt)) := do
  settle (← program (rules fuel).declaration fuel)

def parseExpression (fuel : Nat) : Parser (Except (List SyntaxError) Expr) := fun p =>
  match wholeExpression (rules fuel).expression p with
  | .ok e q => settle e q
  | .error (.refused e) q => .ok (.error (q.errors ++ [e])) { q with errors := [] }
  | .error stop q => .error stop q

end LoxLang.Grammar.Indexed
