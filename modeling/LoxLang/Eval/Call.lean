import LoxLang.Eval.Machine

/-!
Calls. A function's body runs in a frame of its own, inside the frame that the function closes over;
a method is bound to its receiver by one more frame between the two. Calling a class makes an instance
and runs its initializer on it. `run` is what executes a body.
-/

namespace LoxLang

/-- How a statement ends. -/
inductive Flow where
  | normal
  | returned (v : Value)

def receiverName : String :=
  "this"

def superclassName : String :=
  "super"

/-- The number of arguments that a function takes. -/
def FunctionObject.arity (f : FunctionObject) : Nat :=
  f.decl.params.length

namespace Heap

/-- The number of arguments that a value takes when it is called, if it can be called. -/
def arity? (h : Heap) (natives : List Native) : Value → Option Nat
  | .native i => (natives[i]?).map Native.arity
  | .function a => some (h.function a).arity
  | .classRef c =>
    some (((h.findMethod? c FunctionDecl.initializerName).map fun m => (h.function m).arity).getD 0)
  | _ => none

end Heap

namespace Eval

/-- Binds parameters to arguments, in order. -/
def argumentBindings (params : List Token) (arguments : List Value) : Bindings Value :=
  ((params.map Token.lexeme).zip arguments).foldl (fun b p => b.insert p.1 p.2) []

/-- Calls a function. An initializer gives its receiver back, whatever its body returns. -/
def callFunction (run : List Stmt → Eval Flow) (f : Address) (arguments : List Value) (line : Nat) :
    Eval Value := do
  let f := (← getHeap).function f
  let frame ← newFrame ⟨argumentBindings f.decl.params arguments, some f.closure, .call f.decl⟩
  let flow ← inFrame frame (run f.decl.body)
  if f.isInitializer then onLine line ((← getHeap).getAt f.closure 0 receiverName)
  else
    match flow with
    | .returned v => return v
    | .normal => return .nil

/-- A copy of a method whose closure binds the receiver. -/
def bindMethod (method : Address) (receiver : Value) : Eval Address := do
  let m := (← getHeap).function method
  let frame ← newFrame ⟨[(receiverName, receiver)], some m.closure, .receiver⟩
  newFunction { m with closure := frame }

/-- Makes an instance of a class. -/
def instantiate (run : List Stmt → Eval Flow) (c : Address) (arguments : List Value) (line : Nat) :
    Eval Value := do
  let i ← newInstance ⟨c, []⟩
  match (← getHeap).findMethod? c FunctionDecl.initializerName with
  | some method =>
    let _ ← callFunction run (← bindMethod method (.object i)) arguments line
    return .object i
  | none => return .object i

/-- Calls a value with as many arguments as it takes. -/
def enter (σ : Setting) (run : List Stmt → Eval Flow) (callee : Value) (arguments : List Value)
    (line : Nat) : Eval Value := do
  match callee with
  | .native i =>
    match σ.natives[i]? with
    | some native =>
      match native.run (← consult) arguments with
      | .ok v => return v
      | .error message => fail line (.native message)
    | none => fail line .notCallable
  | .function f => callFunction run f arguments line
  | .classRef c => instantiate run c arguments line
  | _ => fail line .notCallable

/-- Calls a value, if it can be called with these arguments. -/
def invoke (σ : Setting) (run : List Stmt → Eval Flow) (callee : Value) (arguments : List Value)
    (line : Nat) : Eval Value := do
  match (← getHeap).arity? σ.natives callee with
  | none => fail line .notCallable
  | some n =>
    if arguments.length = n then enter σ run callee arguments line
    else fail line (.wrongCount n arguments.length)

end Eval

end LoxLang
