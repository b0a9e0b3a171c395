import LoxLang.Scope.Context

/-!
The static walk: one pass over a program in the order of its text that opens and closes scopes as
running it opens and closes frames, enters the distances of references and reports what no program
may do. An error does not stop the walk.
-/

namespace LoxLang

namespace Scope

def Context.useIdent (ref : Reference) (c : Context) : Context :=
  let c := if c.innermost? ref.name.lexeme = some false then
    c.report ref.name .readInInitializer else c
  c.bind ref

/-- Outside of classes, `this` is reported and gets no distance. -/
def Context.useThis (ref : Reference) (c : Context) : Context :=
  if c.classKind = .none then c.report ref.name .thisOutside else c.bind ref

/-- A misplaced `super` is reported, and bound like any other. -/
def Context.useSuper (ref : Reference) (c : Context) : Context :=
  let c := match c.classKind with
    | .none => c.report ref.name .superOutside
    | .base => c.report ref.name .superInBase
    | .derived => c
  c.bind ref

def Context.useReturn (keyword : Token) (hasValue : Bool) (c : Context) : Context :=
  let c := if c.functionKind = .none then c.report keyword .returnOutside else c
  if hasValue = true ∧ c.functionKind = .initializer then c.report keyword .returnsValue else c

def Context.declareAndDefine (name : Token) (c : Context) : Context :=
  (c.declare name).define name

def Context.parameters (params : List Token) (c : Context) : Context :=
  params.foldl (fun c p => c.declareAndDefine p) c

/-- Enters a class: its name, its superclass, and scopes for `super` and `this`. -/
def Context.enterClass (name : Token) (superclass : Option Reference) (c : Context) : Context :=
  let c := { c with classKind := ClassKind.base }.declareAndDefine name
  let c := match superclass with
    | none => c
    | some ref =>
      let c := if ref.name.lexeme = name.lexeme then c.report ref.name .inheritsItself else c
      ({ c with classKind := ClassKind.derived }.useIdent ref).openScope.mark "super" true
  c.openScope.mark "this" true

/-- Leaves a class for a place of kind `outer`. -/
def Context.leaveClass (outer : ClassKind) (superclass : Option Reference) (c : Context) : Context :=
  let c := c.closeScope
  let c := if superclass.isSome then c.closeScope else c
  { c with classKind := outer }

def methodKind (d : FunctionDecl) : FunctionKind :=
  if d.isInitializer then .initializer else .method

end Scope

open Scope

mutual

def Expr.walk : Expr → Context → Context
  | .literal _, c => c
  | .group inner, c => inner.walk c
  | .unary _ right, c => right.walk c
  | .binary left _ right, c => right.walk (left.walk c)
  | .logical left _ right, c => right.walk (left.walk c)
  | .ident ref, c => c.useIdent ref
  | .assign ref value, c => (value.walk c).bind ref
  | .call callee _ arguments, c => walkExprs arguments (callee.walk c)
  | .function decl, c => decl.walk .function c
  | .get object _, c => object.walk c
  | .set object _ value, c => value.walk (object.walk c)
  | .this ref, c => c.useThis ref
  | .super ref _, c => c.useSuper ref

def walkExprs : List Expr → Context → Context
  | [], c => c
  | e :: rest, c => walkExprs rest (e.walk c)

/-- Parameters and body share one scope, as a call has one frame for both. -/
def FunctionDecl.walk : FunctionDecl → FunctionKind → Context → Context
  | .mk _ _ params body, kind, c =>
    let inside := { c with functionKind := kind }.openScope.parameters params
    let after := (walkStmts body inside).closeScope
    { after with functionKind := c.functionKind }

def Stmt.walk : Stmt → Context → Context
  | .expr value, c => value.walk c
  | .print value, c => value.walk c
  | .var name none, c => c.declareAndDefine name
  | .var name (some value), c => (value.walk (c.declare name)).define name
  | .block body, c => (walkStmts body c.openScope).closeScope
  | .branch condition thenBranch none, c => thenBranch.walk (condition.walk c)
  | .branch condition thenBranch (some elseBranch), c =>
    elseBranch.walk (thenBranch.walk (condition.walk c))
  | .loop condition body, c => body.walk (condition.walk c)
  | .function decl, c =>
    decl.walk .function
      (match decl.name? with
      | some name => c.declareAndDefine name
      | none => c)
  | .ret keyword none, c => c.useReturn keyword false
  | .ret keyword (some value), c => value.walk (c.useReturn keyword true)
  | .classDecl name superclass methods, c =>
    (walkMethods methods (c.enterClass name superclass)).leaveClass c.classKind superclass

def walkStmts : List Stmt → Context → Context
  | [], c => c
  | s :: rest, c => walkStmts rest (s.walk c)

def walkMethods : List FunctionDecl → Context → Context
  | [], c => c
  | d :: rest, c => walkMethods rest (d.walk (methodKind d) c)

end

namespace Scope

/-- What the walk finds: the static errors in the order of the text, and the distances, the latest
first. -/
structure Findings where
  errors : List StaticError
  distances : Distances

def Context.findings (c : Context) : Findings :=
  ⟨c.errors, c.distances⟩

def resolveProgram (program : List Stmt) : Findings :=
  (walkStmts program .initial).findings

def resolveExpression (e : Expr) : Findings :=
  (e.walk .initial).findings

end Scope

end LoxLang
