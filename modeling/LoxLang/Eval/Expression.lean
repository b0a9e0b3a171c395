import LoxLang.Eval.Call
import LoxLang.Eval.Operation

/-!
Evaluation of expressions, one node deep: `eval` evaluates the parts of a node and `invoke` calls a
value.
-/

namespace LoxLang.Eval

def ofLiteral : Literal → Value
  | .number x => .number x
  | .text s => .text s
  | .bool b => .bool b
  | .nil => .nil

/-- Evaluates expressions from left to right. -/
def evaluateAll (eval : Expr → Eval Value) : List Expr → Eval (List Value)
  | [] => return []
  | e :: rest => do
    let v ← eval e
    return v :: (← evaluateAll eval rest)

/-- Makes a function that closes over the current frame. -/
def closure (decl : FunctionDecl) : Eval Value := do
  return .function (← newFunction ⟨decl, ← getCurrent, false⟩)

/-- A field of an instance, or else a method of its class bound to it. -/
def property (i : Address) (name : Token) : Eval Value := do
  let h ← getHeap
  let object := h.instanceObject i
  match object.fields.find? name.lexeme with
  | some v => return v
  | none =>
    match h.findMethod? object.classAddress name.lexeme with
    | some method => return .function (← bindMethod method (.object i))
    | none => fail name.line (.undefinedProperty name.lexeme)

/-- A method of the superclass bound to the receiver, whose frame is the one inside the frame of the
superclass. -/
def superMethod (σ : Setting) (ref : Reference) (method : Token) : Eval Value := do
  let line := ref.name.line
  match σ.distances.lookup ref.id with
  | none => fail line .unresolvedSuper
  | some 0 => fail line .unresolvedSuper
  | some (inner + 1) =>
    let m ← get
    let superclass ← onLine line (m.heap.getAt m.current (inner + 1) superclassName)
    let receiver ← onLine line (m.heap.getAt m.current inner receiverName)
    match superclass, receiver with
    | .classRef c, .object i =>
      match m.heap.findMethod? c method.lexeme with
      | some found => return .function (← bindMethod found (.object i))
      | none => fail method.line (.undefinedProperty method.lexeme)
    | _, _ => fail line .malformedSuper

def expression (σ : Setting) (eval : Expr → Eval Value)
    (invoke : Value → List Value → Nat → Eval Value) : Expr → Eval Value
  | .literal value => return ofLiteral value
  | .group inner => eval inner
  | .unary operator right => do
    let v ← eval right
    onLine operator.line (unaryOperation operator v)
  | .binary left operator right => do
    let v ← eval left
    let w ← eval right
    onLine operator.line (binaryOperation operator v w)
  | .logical left operator right => do
    let v ← eval left
    if shortCircuits operator v then return v else eval right
  | .ident ref => lookUp σ ref
  | .assign ref value => do
    let v ← eval value
    assignTo σ ref v
    return v
  | .call callee paren arguments => do
    let f ← eval callee
    let vs ← evaluateAll eval arguments
    invoke f vs paren.line
  | .function decl => closure decl
  | .get object name => do
    match ← eval object with
    | .object i => property i name
    | _ => fail name.line .noInstanceToRead
  | .set object name value => do
    match ← eval object with
    | .object i =>
      let v ← eval value
      changeHeap (Heap.setField i name.lexeme v)
      return v
    | _ => fail name.line .noInstanceToWrite
  | .this ref => lookUp σ ref
  | .super ref method => superMethod σ ref method

end LoxLang.Eval
