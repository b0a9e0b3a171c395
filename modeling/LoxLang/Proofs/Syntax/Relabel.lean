import LoxLang.Store.Heap

/-!
Code under other labels. Identities tell the occurrences of a name apart, and lines tell where
reports come from; relabelling changes these and nothing else of a tree. Bare code has the
identities it had and one line for everything, so that two trees differ in their lines only if they
are equal when bare.
-/

namespace LoxLang

structure Relabelling where
  /-- What is added to identities. -/
  shift : Identity
  /-- The line that a line is replaced by. -/
  line : Nat → Nat

/-- Leaves the identities as they are and forgets the lines. -/
def Relabelling.bare : Relabelling :=
  ⟨0, fun _ => 0⟩

section

variable (μ : Relabelling)

def Token.relabel (t : Token) : Token :=
  { t with line := μ.line t.line }

def Reference.relabel (ref : Reference) : Reference :=
  ⟨ref.id + μ.shift, ref.name.relabel μ⟩

mutual

def Expr.relabel : Expr → Expr
  | .literal v => .literal v
  | .group inner => .group inner.relabel
  | .unary operator right => .unary (operator.relabel μ) right.relabel
  | .binary left operator right => .binary left.relabel (operator.relabel μ) right.relabel
  | .logical left operator right => .logical left.relabel (operator.relabel μ) right.relabel
  | .ident ref => .ident (ref.relabel μ)
  | .assign ref value => .assign (ref.relabel μ) value.relabel
  | .call callee paren arguments => .call callee.relabel (paren.relabel μ) (relabelExprs arguments)
  | .function decl => .function decl.relabel
  | .get object name => .get object.relabel (name.relabel μ)
  | .set object name value => .set object.relabel (name.relabel μ) value.relabel
  | .this ref => .this (ref.relabel μ)
  | .super ref method => .super (ref.relabel μ) (method.relabel μ)

def relabelExprs : List Expr → List Expr
  | [] => []
  | e :: rest => e.relabel :: relabelExprs rest

def FunctionDecl.relabel : FunctionDecl → FunctionDecl
  | .mk name line params body =>
    .mk (name.map (Token.relabel μ)) (μ.line line) (params.map (Token.relabel μ))
      (relabelStmts body)

def Stmt.relabel : Stmt → Stmt
  | .expr value => .expr value.relabel
  | .print value => .print value.relabel
  | .var name none => .var (name.relabel μ) none
  | .var name (some value) => .var (name.relabel μ) (some value.relabel)
  | .block body => .block (relabelStmts body)
  | .branch condition thenBranch none => .branch condition.relabel thenBranch.relabel none
  | .branch condition thenBranch (some elseBranch) =>
    .branch condition.relabel thenBranch.relabel (some elseBranch.relabel)
  | .loop condition body => .loop condition.relabel body.relabel
  | .function decl => .function decl.relabel
  | .ret keyword none => .ret (keyword.relabel μ) none
  | .ret keyword (some value) => .ret (keyword.relabel μ) (some value.relabel)
  | .classDecl name superclass methods =>
    .classDecl (name.relabel μ) (superclass.map (Reference.relabel μ)) (relabelMethods methods)

def relabelStmts : List Stmt → List Stmt
  | [] => []
  | s :: rest => s.relabel :: relabelStmts rest

def relabelMethods : List FunctionDecl → List FunctionDecl
  | [] => []
  | d :: rest => d.relabel :: relabelMethods rest

end

def Origin.relabel : Origin → Origin
  | .globals => .globals
  | .block body => .block (relabelStmts μ body)
  | .call decl => .call (decl.relabel μ)
  | .receiver => .receiver
  | .superclass => .superclass

end

variable {μ : Relabelling}

@[simp]
theorem Token.kind_relabel (t : Token) : (t.relabel μ).kind = t.kind :=
  rfl

@[simp]
theorem Token.lexeme_relabel (t : Token) : (t.relabel μ).lexeme = t.lexeme :=
  rfl

@[simp]
theorem Reference.name_relabel (ref : Reference) : (ref.relabel μ).name = ref.name.relabel μ :=
  rfl

theorem Stmt.relabel_var (name : Token) (initializer : Option Expr) :
    (Stmt.var name initializer).relabel μ =
      .var (name.relabel μ) (initializer.map (Expr.relabel μ)) := by
  cases initializer <;> rfl

theorem Stmt.relabel_branch (condition : Expr) (thenBranch : Stmt) (elseBranch : Option Stmt) :
    (Stmt.branch condition thenBranch elseBranch).relabel μ =
      .branch (condition.relabel μ) (thenBranch.relabel μ) (elseBranch.map (Stmt.relabel μ)) := by
  cases elseBranch <;> rfl

theorem Stmt.relabel_ret (keyword : Token) (value : Option Expr) :
    (Stmt.ret keyword value).relabel μ =
      .ret (keyword.relabel μ) (value.map (Expr.relabel μ)) := by
  cases value <;> rfl

theorem FunctionDecl.name?_relabel (d : FunctionDecl) :
    (d.relabel μ).name? = d.name?.map (Token.relabel μ) := by
  cases d
  rfl

theorem FunctionDecl.name_relabel (d : FunctionDecl) : (d.relabel μ).name = d.name := by
  rw [name, name?_relabel, name]
  cases d.name? <;> rfl

theorem FunctionDecl.isInitializer_relabel (d : FunctionDecl) :
    (d.relabel μ).isInitializer = d.isInitializer := by
  rw [isInitializer, name_relabel, isInitializer]

theorem FunctionDecl.params_relabel (d : FunctionDecl) :
    (d.relabel μ).params = d.params.map (Token.relabel μ) := by
  cases d
  rfl

theorem FunctionDecl.body_relabel (d : FunctionDecl) :
    (d.relabel μ).body = relabelStmts μ d.body := by
  cases d
  rfl

end LoxLang
