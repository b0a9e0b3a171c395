import LoxLang.Eval.Expression

/-!
Execution of statements, one node deep: `eval` evaluates the expressions of a node and `exec` executes
its statements.
-/

namespace LoxLang.Eval

/-- Executes statements in order, up to one that returns. -/
def executeAll (exec : Stmt → Eval Flow) : List Stmt → Eval Flow
  | [] => return .normal
  | s :: rest => do
    match ← exec s with
    | .returned v => return .returned v
    | .normal => executeAll exec rest

/-- Repeats a body while a test holds, at most `n` times before the fuel is out. -/
def repeatWhile (test : Eval Bool) (body : Eval Flow) : Nat → Eval Flow
  | 0 => throw .outOfFuel
  | n + 1 => do
    if ← test then
      match ← body with
      | .returned v => return .returned v
      | .normal => repeatWhile test body n
    else return .normal

/-- Binds a name in the current frame. -/
def defineHere (name : String) (v : Value) : Eval Unit := do
  let here ← getCurrent
  changeHeap (Heap.define here name v)

/-- The value of an optional expression, `nil` without one. -/
def optionalValue (eval : Expr → Eval Value) : Option Expr → Eval Value
  | some e => eval e
  | none => return .nil

def printValue (v : Value) : Eval Unit := do
  write (v.printed (← getHeap))
  write "\n"

/-- The class that a class statement inherits from. -/
def superclassOf (σ : Setting) : Option Reference → Eval (Option Address)
  | none => return none
  | some ref => do
    match ← lookUp σ ref with
    | .classRef c => return some c
    | _ => fail ref.name.line .superclassNoClass

/-- Runs an action in the frame that the methods of a class close over: the current one, or one around
them that holds the superclass. -/
def inMethodFrame {α : Type} (superclass : Option Address) (action : Eval α) : Eval α :=
  match superclass with
  | none => action
  | some c => do
    let here ← getCurrent
    let frame ← newFrame ⟨[(superclassName, .classRef c)], some here, .superclass⟩
    inFrame frame action

/-- Makes the methods of a class, which close over the current frame; of two with one name the later
counts. -/
def methodTable (table : Bindings Address) : List FunctionDecl → Eval (Bindings Address)
  | [] => return table
  | d :: rest => do
    let f ← newFunction ⟨d, ← getCurrent, d.isInitializer⟩
    methodTable (table.insert d.name f) rest

/-- Defines a class. Its name is bound before its methods are made, and given its value last. -/
def defineClass (σ : Setting) (name : Token) (superclass : Option Reference)
    (methods : List FunctionDecl) : Eval Unit := do
  let up ← superclassOf σ superclass
  defineHere name.lexeme .nil
  let table ← inMethodFrame up (methodTable [] methods)
  let c ← newClass ⟨name.lexeme, up, table⟩
  let f ← onLine name.line ((← getHeap).locate (← getCurrent) name.lexeme)
  changeHeap (Heap.define f name.lexeme (.classRef c))

def statement (σ : Setting) (fuel : Nat) (eval : Expr → Eval Value) (exec : Stmt → Eval Flow) :
    Stmt → Eval Flow
  | .expr value => do
    let _ ← eval value
    return .normal
  | .print value => do
    printValue (← eval value)
    return .normal
  | .var name initializer => do
    defineHere name.lexeme (← optionalValue eval initializer)
    return .normal
  | .block body => do
    let here ← getCurrent
    let frame ← newFrame ⟨[], some here, .block body⟩
    inFrame frame (executeAll exec body)
  | .branch condition thenBranch elseBranch => do
    if (← eval condition).isTruthy then exec thenBranch
    else
      match elseBranch with
      | some s => exec s
      | none => return .normal
  | .loop condition body => repeatWhile (Value.isTruthy <$> eval condition) (exec body) fuel
  | .function decl => do
    defineHere decl.name (← closure decl)
    return .normal
  | .ret _ value => return .returned (← optionalValue eval value)
  | .classDecl name superclass methods => do
    defineClass σ name superclass methods
    return .normal

end LoxLang.Eval
