import LoxLang.Proofs.Syntax.Relabel

/-!
Code in another place. Where a text is read later, its references have later identities, and where it
is read behind other text, its tokens are on later lines. Moving changes nothing else of a tree.
-/

namespace LoxLang

structure Move where
  /-- What is added to identities. -/
  shift : Identity
  /-- What is added to lines. -/
  lines : Nat

section

variable (δ : Move)

def Token.moved (t : Token) : Token :=
  { t with line := t.line + δ.lines }

def Reference.moved (ref : Reference) : Reference :=
  ⟨ref.id + δ.shift, ref.name.moved δ⟩

mutual

def Expr.moved : Expr → Expr
  | .literal v => .literal v
  | .group inner => .group inner.moved
  | .unary operator right => .unary (operator.moved δ) right.moved
  | .binary left operator right => .binary left.moved (operator.moved δ) right.moved
  | .logical left operator right => .logical left.moved (operator.moved δ) right.moved
  | .ident ref => .ident (ref.moved δ)
  | .assign ref value => .assign (ref.moved δ) value.moved
  | .call callee paren arguments => .call callee.moved (paren.moved δ) (movedExprs arguments)
  | .function decl => .function decl.moved
  | .get object name => .get object.moved (name.moved δ)
  | .set object name value => .set object.moved (name.moved δ) value.moved
  | .this ref => .this (ref.moved δ)
  | .super ref method => .super (ref.moved δ) (method.moved δ)

def movedExprs : List Expr → List Expr
  | [] => []
  | e :: rest => e.moved :: movedExprs rest

def FunctionDecl.moved : FunctionDecl → FunctionDecl
  | .mk name line params body =>
    .mk (name.map (Token.moved δ)) (line + δ.lines) (params.map (Token.moved δ)) (movedStmts body)

def Stmt.moved : Stmt → Stmt
  | .expr value => .expr value.moved
  | .print value => .print value.moved
  | .var name none => .var (name.moved δ) none
  | .var name (some value) => .var (name.moved δ) (some value.moved)
  | .block body => .block (movedStmts body)
  | .branch condition thenBranch none => .branch condition.moved thenBranch.moved none
  | .branch condition thenBranch (some elseBranch) =>
    .branch condition.moved thenBranch.moved (some elseBranch.moved)
  | .loop condition body => .loop condition.moved body.moved
  | .function decl => .function decl.moved
  | .ret keyword none => .ret (keyword.moved δ) none
  | .ret keyword (some value) => .ret (keyword.moved δ) (some value.moved)
  | .classDecl name superclass methods =>
    .classDecl (name.moved δ) (superclass.map (Reference.moved δ)) (movedMethods methods)

def movedStmts : List Stmt → List Stmt
  | [] => []
  | s :: rest => s.moved :: movedStmts rest

def movedMethods : List FunctionDecl → List FunctionDecl
  | [] => []
  | d :: rest => d.moved :: movedMethods rest

end

def Origin.moved : Origin → Origin
  | .globals => .globals
  | .block body => .block (movedStmts δ body)
  | .call decl => .call (decl.moved δ)
  | .receiver => .receiver
  | .superclass => .superclass

end

variable {δ : Move}

/-- A move relabels. -/
def Move.relabelling (δ : Move) : Relabelling :=
  ⟨δ.shift, (· + δ.lines)⟩

theorem Token.moved_eq : Token.moved δ = Token.relabel δ.relabelling :=
  rfl

mutual

theorem Expr.moved_eq : ∀ e : Expr, e.moved δ = e.relabel δ.relabelling
  | .literal _ => rfl
  | .group inner => congrArg Expr.group inner.moved_eq
  | .unary _ right => congrArg (Expr.unary _) right.moved_eq
  | .binary left operator right => by rw [Expr.moved, left.moved_eq, right.moved_eq]; rfl
  | .logical left operator right => by rw [Expr.moved, left.moved_eq, right.moved_eq]; rfl
  | .ident _ => rfl
  | .assign _ value => congrArg (Expr.assign _) value.moved_eq
  | .call callee paren arguments => by
    rw [Expr.moved, callee.moved_eq, movedExprs_eq arguments]
    rfl
  | .function decl => congrArg Expr.function decl.moved_eq
  | .get object name => by rw [Expr.moved, object.moved_eq]; rfl
  | .set object name value => by rw [Expr.moved, object.moved_eq, value.moved_eq]; rfl
  | .this _ => rfl
  | .super _ _ => rfl

theorem movedExprs_eq : ∀ es : List Expr, movedExprs δ es = relabelExprs δ.relabelling es
  | [] => rfl
  | e :: rest => by rw [movedExprs, e.moved_eq, movedExprs_eq rest, relabelExprs]

theorem FunctionDecl.moved_eq : ∀ d : FunctionDecl, d.moved δ = d.relabel δ.relabelling
  | .mk _ _ _ body => congrArg (FunctionDecl.mk _ _ _) (movedStmts_eq body)

theorem Stmt.moved_eq : ∀ s : Stmt, s.moved δ = s.relabel δ.relabelling
  | .expr value => congrArg Stmt.expr value.moved_eq
  | .print value => congrArg Stmt.print value.moved_eq
  | .var _ none => rfl
  | .var _ (some value) => congrArg (fun e => Stmt.var _ (some e)) value.moved_eq
  | .block body => congrArg Stmt.block (movedStmts_eq body)
  | .branch condition thenBranch none => by
    rw [Stmt.moved, condition.moved_eq, thenBranch.moved_eq, Stmt.relabel]
  | .branch condition thenBranch (some elseBranch) => by
    rw [Stmt.moved, condition.moved_eq, thenBranch.moved_eq, elseBranch.moved_eq, Stmt.relabel]
  | .loop condition body => by rw [Stmt.moved, condition.moved_eq, body.moved_eq, Stmt.relabel]
  | .function decl => congrArg Stmt.function decl.moved_eq
  | .ret _ none => rfl
  | .ret _ (some value) => congrArg (fun e => Stmt.ret _ (some e)) value.moved_eq
  | .classDecl _ _ methods => congrArg (Stmt.classDecl _ _) (movedMethods_eq methods)

theorem movedStmts_eq : ∀ ss : List Stmt, movedStmts δ ss = relabelStmts δ.relabelling ss
  | [] => rfl
  | s :: rest => by rw [movedStmts, s.moved_eq, movedStmts_eq rest, relabelStmts]

theorem movedMethods_eq : ∀ ds : List FunctionDecl,
    movedMethods δ ds = relabelMethods δ.relabelling ds
  | [] => rfl
  | d :: rest => by rw [movedMethods, d.moved_eq, movedMethods_eq rest, relabelMethods]

end

theorem Origin.moved_eq : Origin.moved δ = Origin.relabel δ.relabelling := by
  funext o
  cases o with
  | block body => exact congrArg Origin.block (movedStmts_eq body)
  | call decl => exact congrArg Origin.call decl.moved_eq
  | _ => rfl

end LoxLang
