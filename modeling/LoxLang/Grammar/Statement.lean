import LoxLang.Grammar.Expression

/-!
The rules for statements and declarations. A declaration that cannot be read is recorded, and reading
resumes at the next place where a statement may begin.

    declaration → "class" IDENTIFIER ( "<" IDENTIFIER )? "{" function* "}"
                | "fun" function | variable | statement
    function    → IDENTIFIER "(" parameters? ")" block
    variable    → "var" IDENTIFIER ( "=" expression )? ";"
    statement   → "for" "(" ( variable | expression ";" | ";" ) expression? ";" expression? ")" statement
                | "if" "(" expression ")" statement ( "else" statement )?
                | "print" expression ";" | "return" expression? ";"
                | "while" "(" expression ")" statement | "{" declaration* "}" | expression ";"
-/

namespace LoxLang.Grammar

/-- A named function, behind the keyword if it has one. -/
def namedFunction (r : Rules) (form : FunctionForm) : Reader FunctionDecl := do
  let name ← expect .identifier (.noFunctionName form)
  let _ ← expect .leftParen (.noParameterList form)
  functionRest r form (some name) name.line

/-- Methods up to a closing brace or the end. -/
def methods (r : Rules) : Nat → Reader (List FunctionDecl)
  | 0 => return []
  | n + 1 => do
    if (← sees .rightBrace) || (← atEnd) then return []
    else
      let first ← namedFunction r .method
      return first :: (← methods r n)

def superclass? : Reader (Option Reference) := do
  if ← accept .less then
    return some (← reference (← expect .identifier .noSuperclassName))
  else return none

def classRest (r : Rules) : Reader Stmt := do
  let name ← expect .identifier .noClassName
  let superclass ← superclass?
  let _ ← expect .leftBrace .noClassBody
  let members ← methods r r.bound
  let _ ← expect .rightBrace .noClassEnd
  return .classDecl name superclass members

def variableRest (r : Rules) : Reader Stmt := do
  let name ← expect .identifier .noVariableName
  let initializer ← if ← accept .equal then some <$> assignment r else pure none
  let _ ← expect .semicolon .noVariableEnd
  return .var name initializer

def expressionStatement (r : Rules) : Reader Stmt := do
  let value ← assignment r
  let _ ← expect .semicolon .noStatementEnd
  return .expr value

/-- The loop that a `for` statement stands for: the initializer in a block around a loop whose body
ends with the increment. -/
def forLoop (initializer : Option Stmt) (condition : Expr) (increment : Option Expr) (body : Stmt) :
    Stmt :=
  let repeated := match increment with
    | some e => .block [body, .expr e]
    | none => body
  match initializer with
  | some s => .block [s, .loop condition repeated]
  | none => .loop condition repeated

def forInitializer (r : Rules) : Reader (Option Stmt) := do
  if ← accept .semicolon then return none
  else if ← accept .kwVar then some <$> variableRest r
  else some <$> expressionStatement r

def forRest (r : Rules) : Reader Stmt := do
  let _ ← expect .leftParen .noForClauses
  let initializer ← forInitializer r
  let condition ←
    if ← sees .semicolon then pure (.literal (.bool true)) else assignment r
  let _ ← expect .semicolon .noForConditionEnd
  let increment ← if ← sees .rightParen then pure none else some <$> assignment r
  let _ ← expect .rightParen .noForClausesEnd
  return forLoop initializer condition increment (← r.statement)

def ifRest (r : Rules) : Reader Stmt := do
  let _ ← expect .leftParen .noIfCondition
  let condition ← assignment r
  let _ ← expect .rightParen .noIfConditionEnd
  let thenBranch ← r.statement
  let elseBranch ← if ← accept .kwElse then some <$> r.statement else pure none
  return .branch condition thenBranch elseBranch

def printRest (r : Rules) : Reader Stmt := do
  let value ← assignment r
  let _ ← expect .semicolon .noPrintEnd
  return .print value

def returnRest (r : Rules) (keyword : Token) : Reader Stmt := do
  let value ← if ← sees .semicolon then pure none else some <$> assignment r
  let _ ← expect .semicolon .noReturnEnd
  return .ret keyword value

def whileRest (r : Rules) : Reader Stmt := do
  let _ ← expect .leftParen .noWhileCondition
  let condition ← assignment r
  let _ ← expect .rightParen .noWhileConditionEnd
  return .loop condition (← r.statement)

def statement (r : Rules) : Reader Stmt := do
  match ← next? with
  | none => expressionStatement r
  | some t =>
    match t.kind with
    | .kwFor => skip; forRest r
    | .kwIf => skip; ifRest r
    | .kwPrint => skip; printRest r
    | .kwReturn => skip; returnRest r t
    | .kwWhile => skip; whileRest r
    | .leftBrace => skip; .block <$> block r
    | _ => expressionStatement r

/-- Whether a named function comes next: without a name, the keyword begins an expression. -/
def seesNamedFunction : Reader Bool := do
  match (← get).ahead with
  | first :: second :: _ => return first.kind == .kwFun && second.kind == .identifier
  | _ => return false

/-- A declaration, up to its first error. -/
def declared (r : Rules) : Reader Stmt := do
  if ← accept .kwClass then classRest r
  else if ← seesNamedFunction then skip; .function <$> namedFunction r .function
  else if ← accept .kwVar then variableRest r
  else statement r

/-- Whether a statement that begins with this kind of token can be told by it. -/
def beginsStatement (kind : Kind) : Bool :=
  kind == .kwClass || kind == .kwFun || kind == .kwVar || kind == .kwFor || kind == .kwIf ||
    kind == .kwWhile || kind == .kwPrint || kind == .kwReturn

/-- Drops tokens up to one that begins a statement or behind a semicolon. -/
def resume : List Token → List Token
  | [] => []
  | t :: rest =>
    if beginsStatement t.kind then t :: rest
    else if t.kind = .semicolon then rest
    else resume rest

/-- Where reading goes on after an error: behind a semicolon that stands next, else one token on at
the least. -/
def synchronized : List Token → List Token
  | [] => []
  | t :: rest => if t.kind = .semicolon then rest else resume rest

/-- Turns an error into a record, and reads on behind it. -/
def recovering {α : Type} (read : Reader α) : Reader (Option α) := fun c =>
  match read c with
  | .ok a c => .ok (some a) c
  | .error e c => .ok none { c with ahead := synchronized c.ahead, errors := c.errors ++ [e] }

def declaration (r : Rules) : Reader (Option Stmt) :=
  recovering (declared r)

end LoxLang.Grammar
