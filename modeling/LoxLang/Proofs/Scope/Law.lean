import LoxLang.Proofs.Eval.Watch
import LoxLang.Proofs.Scope.Layer

/-!
Laws that trees obey. A law says which nodes may stand inside of which kind of class, and which functions
may be made as initializers. A tree obeys it if all of its nodes and functions do, however deep. Running
a tree makes functions of its parts and runs their bodies later, so that what a law says of the trees
that a machine is given it says of everything that the machine comes to.
-/

namespace LoxLang

open Scope

structure Law where
  node : Node → ClassKind → Prop
  /-- A function, and whether it is flagged as an initializer. -/
  function : FunctionDecl → Bool → Prop

/-- The kind of class that the methods of a class are in. -/
def Scope.ClassKind.inside {α : Type} (superclass : Option α) : ClassKind :=
  if superclass.isSome then .derived else .base

mutual

def Expr.Obeys (law : Law) (k : ClassKind) (e : Expr) : Prop :=
  law.node (.expr e) k ∧
    match e with
    | .literal _ | .ident _ | .this _ | .super _ _ => True
    | .group inner => inner.Obeys law k
    | .unary _ right => right.Obeys law k
    | .binary left _ right => left.Obeys law k ∧ right.Obeys law k
    | .logical left _ right => left.Obeys law k ∧ right.Obeys law k
    | .assign _ value => value.Obeys law k
    | .call callee _ arguments => callee.Obeys law k ∧ ObeysExprs law k arguments
    | .function decl => decl.Obeys law k false
    | .get object _ => object.Obeys law k
    | .set object _ value => object.Obeys law k ∧ value.Obeys law k

def ObeysExprs (law : Law) (k : ClassKind) : List Expr → Prop
  | [] => True
  | e :: rest => e.Obeys law k ∧ ObeysExprs law k rest

def FunctionDecl.Obeys (law : Law) (k : ClassKind) (isInitializer : Bool) (d : FunctionDecl) : Prop :=
  law.function d isInitializer ∧
    match d with
    | .mk _ _ _ body => ObeysStmts law k body

def Stmt.Obeys (law : Law) (k : ClassKind) (s : Stmt) : Prop :=
  law.node (.stmt s) k ∧
    match s with
    | .expr value | .print value => value.Obeys law k
    | .var _ none | .ret _ none => True
    | .var _ (some value) | .ret _ (some value) => value.Obeys law k
    | .block body => ObeysStmts law k body
    | .branch condition thenBranch none => condition.Obeys law k ∧ thenBranch.Obeys law k
    | .branch condition thenBranch (some elseBranch) =>
      condition.Obeys law k ∧ thenBranch.Obeys law k ∧ elseBranch.Obeys law k
    | .loop condition body => condition.Obeys law k ∧ body.Obeys law k
    | .function decl => decl.Obeys law k false
    | .classDecl _ superclass methods => ObeysMethods law (.inside superclass) methods

def ObeysStmts (law : Law) (k : ClassKind) : List Stmt → Prop
  | [] => True
  | s :: rest => s.Obeys law k ∧ ObeysStmts law k rest

/-- Methods are flagged by their names. -/
def ObeysMethods (law : Law) (k : ClassKind) : List FunctionDecl → Prop
  | [] => True
  | d :: rest => d.Obeys law k d.isInitializer ∧ ObeysMethods law k rest

end

def Node.Obeys (law : Law) (k : ClassKind) : Node → Prop
  | .expr e => e.Obeys law k
  | .stmt s => s.Obeys law k

/-- The name that running a node may give a value in a frame that was there before. -/
def Node.target? : Node → Option String
  | .expr (.assign ref _) => some ref.name.lexeme
  | .expr _ => none
  | .stmt s => s.declared?

namespace Law

/-- Trees that obey a law may give a name a new value. -/
def Writes (law : Law) (name : String) : Prop :=
  ∃ node k, law.node node k ∧ node.target? = some name

/-- The law that every tree obeys. -/
def any : Law :=
  ⟨fun _ _ => True, fun _ _ => True⟩

end Law

section

variable {law : Law} {k : ClassKind} {isInitializer : Bool} {d : FunctionDecl}

theorem FunctionDecl.Obeys.lawful (h : d.Obeys law k isInitializer) :
    law.function d isInitializer := by
  unfold FunctionDecl.Obeys at h
  exact h.1

theorem FunctionDecl.Obeys.body (h : d.Obeys law k isInitializer) : ObeysStmts law k d.body := by
  cases d
  exact h.2

theorem Node.Obeys.lawful {node : Node} (h : node.Obeys law k) : law.node node k := by
  cases node with
  | expr e =>
      unfold Node.Obeys Expr.Obeys at h
      exact h.1
  | stmt s =>
      unfold Node.Obeys Stmt.Obeys at h
      exact h.1

end

mutual

theorem Expr.obeys_any : ∀ (e : Expr) (k : ClassKind), e.Obeys .any k
  | .literal _, _ | .ident _, _ | .this _, _ | .super _ _, _ => ⟨trivial, trivial⟩
  | .group inner, k => ⟨trivial, inner.obeys_any k⟩
  | .unary _ right, k => ⟨trivial, right.obeys_any k⟩
  | .binary left _ right, k => ⟨trivial, left.obeys_any k, right.obeys_any k⟩
  | .logical left _ right, k => ⟨trivial, left.obeys_any k, right.obeys_any k⟩
  | .assign _ value, k => ⟨trivial, value.obeys_any k⟩
  | .call callee _ arguments, k => ⟨trivial, callee.obeys_any k, obeysExprs_any arguments k⟩
  | .function decl, k => ⟨trivial, decl.obeys_any false k⟩
  | .get object _, k => ⟨trivial, object.obeys_any k⟩
  | .set object _ value, k => ⟨trivial, object.obeys_any k, value.obeys_any k⟩

theorem obeysExprs_any : ∀ (es : List Expr) (k : ClassKind), ObeysExprs .any k es
  | [], _ => trivial
  | e :: rest, k => ⟨e.obeys_any k, obeysExprs_any rest k⟩

theorem FunctionDecl.obeys_any : ∀ (d : FunctionDecl) (isInitializer : Bool) (k : ClassKind),
    d.Obeys .any k isInitializer
  | .mk _ _ _ body, _, k => ⟨trivial, obeysStmts_any body k⟩

theorem Stmt.obeys_any : ∀ (s : Stmt) (k : ClassKind), s.Obeys .any k
  | .expr value, k | .print value, k => ⟨trivial, value.obeys_any k⟩
  | .var _ none, _ | .ret _ none, _ => ⟨trivial, trivial⟩
  | .var _ (some value), k | .ret _ (some value), k => ⟨trivial, value.obeys_any k⟩
  | .block body, k => ⟨trivial, obeysStmts_any body k⟩
  | .branch condition thenBranch none, k =>
    ⟨trivial, condition.obeys_any k, thenBranch.obeys_any k⟩
  | .branch condition thenBranch (some elseBranch), k =>
    ⟨trivial, condition.obeys_any k, thenBranch.obeys_any k, elseBranch.obeys_any k⟩
  | .loop condition body, k => ⟨trivial, condition.obeys_any k, body.obeys_any k⟩
  | .function decl, k => ⟨trivial, decl.obeys_any false k⟩
  | .classDecl _ _ methods, _ => ⟨trivial, obeysMethods_any methods _⟩

theorem obeysStmts_any : ∀ (ss : List Stmt) (k : ClassKind), ObeysStmts .any k ss
  | [], _ => trivial
  | s :: rest, k => ⟨s.obeys_any k, obeysStmts_any rest k⟩

theorem obeysMethods_any : ∀ (ds : List FunctionDecl) (k : ClassKind), ObeysMethods .any k ds
  | [], _ => trivial
  | d :: rest, k => ⟨d.obeys_any d.isInitializer k, obeysMethods_any rest k⟩

end

end LoxLang
