import LoxLang.Proofs.Syntax.Relabel

/-!
Code under other identities. The references of a tree are counted on from another identity, and
everything else of the tree is as it was.
-/

namespace LoxLang

/-- Gives the references of a tree other identities, and changes nothing else. -/
def Relabelling.renumber (k : Identity) : Relabelling :=
  ⟨k, id⟩

variable {k : Identity}

@[simp]
theorem Token.relabel_renumber (t : Token) : t.relabel (.renumber k) = t :=
  rfl

@[simp]
theorem Token.map_relabel_renumber (ts : List Token) :
    ts.map (Token.relabel (.renumber k)) = ts :=
  List.map_id ts

@[simp]
theorem Token.option_relabel_renumber (t : Option Token) :
    t.map (Token.relabel (.renumber k)) = t :=
  Option.map_id_apply

theorem Reference.relabel_renumber (ref : Reference) :
    ref.relabel (.renumber k) = ⟨ref.id + k, ref.name⟩ :=
  rfl

@[simp]
theorem Reference.relabel_zero (ref : Reference) : ref.relabel (.renumber 0) = ref := by
  obtain ⟨id, name⟩ := ref
  simp [relabel, Relabelling.renumber, Token.relabel]

mutual

/-- Adding nothing to the identities of a tree changes nothing. -/
theorem Expr.relabel_zero : ∀ e : Expr, e.relabel (.renumber 0) = e
  | .literal _ => rfl
  | .group inner => by simp [Expr.relabel, inner.relabel_zero]
  | .unary _ right => by simp [Expr.relabel, right.relabel_zero]
  | .binary left _ right => by simp [Expr.relabel, left.relabel_zero, right.relabel_zero]
  | .logical left _ right => by simp [Expr.relabel, left.relabel_zero, right.relabel_zero]
  | .ident _ => by simp [Expr.relabel]
  | .assign _ value => by simp [Expr.relabel, value.relabel_zero]
  | .call callee _ arguments => by simp [Expr.relabel, callee.relabel_zero, relabelExprs_zero arguments]
  | .function decl => by simp [Expr.relabel, decl.relabel_zero]
  | .get object _ => by simp [Expr.relabel, object.relabel_zero]
  | .set object _ value => by simp [Expr.relabel, object.relabel_zero, value.relabel_zero]
  | .this _ => by simp [Expr.relabel]
  | .super _ _ => by simp [Expr.relabel]

theorem relabelExprs_zero : ∀ es : List Expr, relabelExprs (.renumber 0) es = es
  | [] => rfl
  | e :: rest => by rw [relabelExprs, e.relabel_zero, relabelExprs_zero rest]

theorem FunctionDecl.relabel_zero : ∀ d : FunctionDecl, d.relabel (.renumber 0) = d
  | .mk name line params body => by
    have hline : (Relabelling.renumber 0).line line = line := rfl
    simp [FunctionDecl.relabel, relabelStmts_zero body, hline]

theorem Stmt.relabel_zero : ∀ s : Stmt, s.relabel (.renumber 0) = s
  | .expr value => by rw [Stmt.relabel, value.relabel_zero]
  | .print value => by rw [Stmt.relabel, value.relabel_zero]
  | .var _ none => by simp [Stmt.relabel]
  | .var _ (some value) => by simp [Stmt.relabel, value.relabel_zero]
  | .block body => by rw [Stmt.relabel, relabelStmts_zero body]
  | .branch condition thenBranch none => by
    rw [Stmt.relabel, condition.relabel_zero, thenBranch.relabel_zero]
  | .branch condition thenBranch (some elseBranch) => by
    rw [Stmt.relabel, condition.relabel_zero, thenBranch.relabel_zero, elseBranch.relabel_zero]
  | .loop condition body => by rw [Stmt.relabel, condition.relabel_zero, body.relabel_zero]
  | .function decl => by rw [Stmt.relabel, decl.relabel_zero]
  | .ret _ none => by simp [Stmt.relabel]
  | .ret _ (some value) => by simp [Stmt.relabel, value.relabel_zero]
  | .classDecl _ superclass methods => by
    have hsuperclass : superclass.map (Reference.relabel (.renumber 0)) = superclass := by
      cases superclass <;> simp
    simp [Stmt.relabel, hsuperclass, relabelMethods_zero methods]

theorem relabelStmts_zero : ∀ ss : List Stmt, relabelStmts (.renumber 0) ss = ss
  | [] => rfl
  | s :: rest => by rw [relabelStmts, s.relabel_zero, relabelStmts_zero rest]

theorem relabelMethods_zero : ∀ ds : List FunctionDecl, relabelMethods (.renumber 0) ds = ds
  | [] => rfl
  | d :: rest => by rw [relabelMethods, d.relabel_zero, relabelMethods_zero rest]

end

end LoxLang
