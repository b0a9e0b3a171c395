import LoxLang.Proofs.Scope.Visits
import LoxLang.Proofs.Syntax.Relabel

/-!
The static walk under other labels. Walking a tree that has been relabelled, behind whatever has
been found before, finds what walking the tree finds, relabelled: the same scopes lead to the same
distances and errors.
-/

namespace LoxLang

namespace Scope

section

variable (μ : Relabelling)

def StaticError.relabel (e : StaticError) : StaticError :=
  { e with token := e.token.relabel μ }

/-- The distances of references that have been relabelled. -/
def relabelDistances (table : Distances) : Distances :=
  table.map fun p => (p.1 + μ.shift, p.2)

def Visit.relabel (v : Visit) : Visit :=
  ⟨v.ref.relabel μ, v.scopes, v.origins.map (Origin.relabel μ)⟩

variable (es : List StaticError) (ds : Distances)

/-- The context under other labels, behind some errors and distances. -/
def Context.relabel (c : Context) : Context :=
  { c with errors := es ++ c.errors.map (StaticError.relabel μ)
           distances := relabelDistances μ c.distances ++ ds }

end

namespace Context

variable {μ : Relabelling} {es : List StaticError} {ds : Distances}

theorem functionKind_relabel (c : Context) : (c.relabel μ es ds).functionKind = c.functionKind :=
  rfl

theorem classKind_relabel (c : Context) : (c.relabel μ es ds).classKind = c.classKind :=
  rfl

theorem innermost?_relabel (name : String) (c : Context) :
    (c.relabel μ es ds).innermost? name = c.innermost? name :=
  rfl

theorem distance?_relabel (name : String) (c : Context) :
    (c.relabel μ es ds).distance? name = c.distance? name :=
  rfl

theorem report_relabel (token : Token) (cause : Cause) (c : Context) :
    (c.relabel μ es ds).report (token.relabel μ) cause =
      (c.report token cause).relabel μ es ds := by
  simp [report, relabel, StaticError.relabel, List.append_assoc]

theorem openScope_relabel (c : Context) :
    (c.relabel μ es ds).openScope = c.openScope.relabel μ es ds :=
  rfl

theorem closeScope_relabel (c : Context) :
    (c.relabel μ es ds).closeScope = c.closeScope.relabel μ es ds :=
  rfl

theorem mark_relabel (name : String) (ready : Bool) (c : Context) :
    (c.relabel μ es ds).mark name ready = (c.mark name ready).relabel μ es ds := by
  obtain ⟨scopes, functionKind, classKind, errors, distances⟩ := c
  cases scopes <;> rfl

theorem declare_relabel (name : Token) (c : Context) :
    (c.relabel μ es ds).declare (name.relabel μ) = (c.declare name).relabel μ es ds := by
  unfold declare
  dsimp only
  rw [Token.lexeme_relabel, innermost?_relabel, mark_relabel, report_relabel]
  split <;> rfl

theorem define_relabel (name : Token) (c : Context) :
    (c.relabel μ es ds).define (name.relabel μ) = (c.define name).relabel μ es ds :=
  mark_relabel ..

theorem declareAndDefine_relabel (name : Token) (c : Context) :
    (c.relabel μ es ds).declareAndDefine (name.relabel μ) =
      (c.declareAndDefine name).relabel μ es ds := by
  rw [declareAndDefine, declare_relabel, define_relabel, declareAndDefine]

theorem parameters_relabel (params : List Token) (c : Context) :
    (c.relabel μ es ds).parameters (params.map (Token.relabel μ)) =
      (c.parameters params).relabel μ es ds := by
  induction params generalizing c with
  | nil => rfl
  | cons p params ih =>
      change ((c.relabel μ es ds).declareAndDefine (p.relabel μ)).parameters _ = _
      rw [declareAndDefine_relabel, ih]
      rfl

theorem bind_relabel (ref : Reference) (c : Context) :
    (c.relabel μ es ds).bind (ref.relabel μ) = (c.bind ref).relabel μ es ds := by
  unfold bind
  rw [Reference.name_relabel, Token.lexeme_relabel, distance?_relabel]
  cases c.distance? ref.name.lexeme <;> rfl

theorem useIdent_relabel (ref : Reference) (c : Context) :
    (c.relabel μ es ds).useIdent (ref.relabel μ) = (c.useIdent ref).relabel μ es ds := by
  unfold useIdent
  dsimp only
  rw [Reference.name_relabel, Token.lexeme_relabel, innermost?_relabel]
  split
  · rw [report_relabel, bind_relabel]
  · rw [bind_relabel]

theorem useThis_relabel (ref : Reference) (c : Context) :
    (c.relabel μ es ds).useThis (ref.relabel μ) = (c.useThis ref).relabel μ es ds := by
  unfold useThis
  rw [classKind_relabel]
  split
  · exact report_relabel ..
  · exact bind_relabel ..

theorem useSuper_relabel (ref : Reference) (c : Context) :
    (c.relabel μ es ds).useSuper (ref.relabel μ) = (c.useSuper ref).relabel μ es ds := by
  unfold useSuper
  dsimp only
  rw [classKind_relabel, Reference.name_relabel]
  cases c.classKind with
  | none => exact (congrArg _ (report_relabel ..)).trans (bind_relabel ..)
  | base => exact (congrArg _ (report_relabel ..)).trans (bind_relabel ..)
  | derived => exact bind_relabel ..

theorem useReturn_relabel (keyword : Token) (hasValue : Bool) (c : Context) :
    (c.relabel μ es ds).useReturn (keyword.relabel μ) hasValue =
      (c.useReturn keyword hasValue).relabel μ es ds := by
  unfold useReturn
  dsimp only
  rw [functionKind_relabel]
  by_cases hnone : c.functionKind = .none
  · rw [if_pos hnone, if_pos hnone, report_relabel, functionKind_relabel]
    split
    · exact report_relabel ..
    · rfl
  · rw [if_neg hnone, if_neg hnone, functionKind_relabel]
    split
    · exact report_relabel ..
    · rfl

theorem setClassKind_relabel (kind : ClassKind) (c : Context) :
    { c.relabel μ es ds with classKind := kind } =
      ({ c with classKind := kind } : Context).relabel μ es ds :=
  rfl

theorem enterClass_relabel (name : Token) (superclass : Option Reference) (c : Context) :
    (c.relabel μ es ds).enterClass (name.relabel μ) (superclass.map (Reference.relabel μ)) =
      (c.enterClass name superclass).relabel μ es ds := by
  cases superclass with
  | none =>
      change ((({ c.relabel μ es ds with classKind := .base } : Context).declareAndDefine
        (name.relabel μ)).openScope).mark "this" true = _
      rw [setClassKind_relabel, declareAndDefine_relabel, openScope_relabel, mark_relabel]
      rfl
  | some ref =>
      unfold enterClass
      dsimp only [Option.map_some]
      rw [setClassKind_relabel, declareAndDefine_relabel, Reference.name_relabel, report_relabel,
        Token.lexeme_relabel, Token.lexeme_relabel]
      split <;>
        rw [setClassKind_relabel, useIdent_relabel, openScope_relabel, mark_relabel, openScope_relabel,
          mark_relabel]

theorem leaveClass_relabel (outer : ClassKind) (superclass : Option Reference) (c : Context) :
    (c.relabel μ es ds).leaveClass outer (superclass.map (Reference.relabel μ)) =
      (c.leaveClass outer superclass).relabel μ es ds := by
  cases superclass <;> rfl

end Context

theorem methodKind_relabel {μ : Relabelling} (d : FunctionDecl) :
    methodKind (d.relabel μ) = methodKind d := by
  rw [methodKind, FunctionDecl.isInitializer_relabel, methodKind]

end Scope

open Scope Context

section

variable {μ : Relabelling} {es : List StaticError} {ds : Distances}

mutual

theorem Expr.walk_relabel : ∀ (e : Expr) (c : Context),
    (e.relabel μ).walk (c.relabel μ es ds) = (e.walk c).relabel μ es ds
  | .literal _, _ => rfl
  | .group inner, c => inner.walk_relabel c
  | .unary _ right, c => right.walk_relabel c
  | .binary left _ right, c => by
    rw [Expr.relabel, Expr.walk, left.walk_relabel, right.walk_relabel, Expr.walk]
  | .logical left _ right, c => by
    rw [Expr.relabel, Expr.walk, left.walk_relabel, right.walk_relabel, Expr.walk]
  | .ident ref, c => useIdent_relabel ref c
  | .assign ref value, c => by
    rw [Expr.relabel, Expr.walk, value.walk_relabel, bind_relabel, Expr.walk]
  | .call callee _ arguments, c => by
    rw [Expr.relabel, Expr.walk, callee.walk_relabel, walkExprs_relabel, Expr.walk]
  | .function decl, c => decl.walk_relabel .function c
  | .get object _, c => object.walk_relabel c
  | .set object _ value, c => by
    rw [Expr.relabel, Expr.walk, object.walk_relabel, value.walk_relabel, Expr.walk]
  | .this ref, c => useThis_relabel ref c
  | .super ref _, c => useSuper_relabel ref c

theorem walkExprs_relabel : ∀ (exprs : List Expr) (c : Context),
    walkExprs (relabelExprs μ exprs) (c.relabel μ es ds) = (walkExprs exprs c).relabel μ es ds
  | [], _ => rfl
  | e :: rest, c => by
    rw [relabelExprs, walkExprs, e.walk_relabel, walkExprs_relabel rest, walkExprs]

theorem FunctionDecl.walk_relabel : ∀ (d : FunctionDecl) (kind : FunctionKind) (c : Context),
    (d.relabel μ).walk kind (c.relabel μ es ds) = (d.walk kind c).relabel μ es ds
  | .mk _ _ params body, kind, c => by
    have hbody := walkStmts_relabel body
      (({ c with functionKind := kind }.openScope).parameters params)
    rw [← parameters_relabel, ← openScope_relabel] at hbody
    exact congrArg (fun after : Context =>
      { after.closeScope with functionKind := c.functionKind }) hbody

theorem Stmt.walk_relabel : ∀ (s : Stmt) (c : Context),
    (s.relabel μ).walk (c.relabel μ es ds) = (s.walk c).relabel μ es ds
  | .expr value, c => value.walk_relabel c
  | .print value, c => value.walk_relabel c
  | .var name none, c => declareAndDefine_relabel name c
  | .var name (some value), c => by
    rw [Stmt.relabel, Stmt.walk, declare_relabel, value.walk_relabel, define_relabel, Stmt.walk]
  | .block body, c => by
    rw [Stmt.relabel, Stmt.walk, openScope_relabel, walkStmts_relabel body, closeScope_relabel,
      Stmt.walk]
  | .branch condition thenBranch none, c => by
    rw [Stmt.relabel, Stmt.walk, condition.walk_relabel, thenBranch.walk_relabel, Stmt.walk]
  | .branch condition thenBranch (some elseBranch), c => by
    rw [Stmt.relabel, Stmt.walk, condition.walk_relabel, thenBranch.walk_relabel,
      elseBranch.walk_relabel, Stmt.walk]
  | .loop condition body, c => by
    rw [Stmt.relabel, Stmt.walk, condition.walk_relabel, body.walk_relabel, Stmt.walk]
  | .function (.mk none line params body), c =>
    (FunctionDecl.mk none line params body).walk_relabel .function c
  | .function (.mk (some name) line params body), c => by
    have hdecl : ((FunctionDecl.mk (some name) line params body).relabel μ).walk .function
        ((c.declareAndDefine name).relabel μ es ds) = _ := FunctionDecl.walk_relabel ..
    rw [← declareAndDefine_relabel] at hdecl
    exact hdecl
  | .ret keyword none, c => useReturn_relabel keyword false c
  | .ret keyword (some value), c => by
    rw [Stmt.relabel, Stmt.walk, useReturn_relabel, value.walk_relabel, Stmt.walk]
  | .classDecl name superclass methods, c => by
    rw [Stmt.relabel, Stmt.walk, enterClass_relabel, walkMethods_relabel methods, Stmt.walk]
    exact leaveClass_relabel ..

theorem walkStmts_relabel : ∀ (ss : List Stmt) (c : Context),
    walkStmts (relabelStmts μ ss) (c.relabel μ es ds) = (walkStmts ss c).relabel μ es ds
  | [], _ => rfl
  | s :: rest, c => by
    rw [relabelStmts, walkStmts, s.walk_relabel, walkStmts_relabel rest, walkStmts]

theorem walkMethods_relabel : ∀ (decls : List FunctionDecl) (c : Context),
    walkMethods (relabelMethods μ decls) (c.relabel μ es ds) = (walkMethods decls c).relabel μ es ds
  | [], _ => rfl
  | d :: rest, c => by
    rw [relabelMethods, walkMethods, methodKind_relabel, d.walk_relabel, walkMethods_relabel rest,
      walkMethods]

end

end

/-! ### Visits -/

section

variable {μ : Relabelling} {es : List StaticError} {ds : Distances}

theorem Scope.methodOrigins_relabel (superclass : Option Reference) (os : List Origin) :
    methodOrigins (superclass.map (Reference.relabel μ)) (os.map (Origin.relabel μ)) =
      (methodOrigins superclass os).map (Origin.relabel μ) := by
  cases superclass <;> rfl

mutual

theorem Expr.visits_relabel : ∀ (e : Expr) (c : Context) (os : List Origin),
    (e.relabel μ).visits (c.relabel μ es ds) (os.map (Origin.relabel μ)) =
      (e.visits c os).map (Visit.relabel μ)
  | .literal _, _, _ => rfl
  | .group inner, c, os => inner.visits_relabel c os
  | .unary _ right, c, os => right.visits_relabel c os
  | .binary left _ right, c, os => by
    rw [Expr.relabel, Expr.visits, left.visits_relabel, left.walk_relabel, right.visits_relabel,
      Expr.visits, List.map_append]
  | .logical left _ right, c, os => by
    rw [Expr.relabel, Expr.visits, left.visits_relabel, left.walk_relabel, right.visits_relabel,
      Expr.visits, List.map_append]
  | .ident _, _, _ => rfl
  | .assign ref value, c, os => by
    rw [Expr.relabel, Expr.visits, value.visits_relabel, value.walk_relabel, Expr.visits,
      List.map_append]
    rfl
  | .call callee _ arguments, c, os => by
    rw [Expr.relabel, Expr.visits, callee.visits_relabel, callee.walk_relabel,
      visitsExprs_relabel arguments, Expr.visits, List.map_append]
  | .function decl, c, os => decl.visits_relabel .function c os
  | .get object _, c, os => object.visits_relabel c os
  | .set object _ value, c, os => by
    rw [Expr.relabel, Expr.visits, object.visits_relabel, object.walk_relabel, value.visits_relabel,
      Expr.visits, List.map_append]
  | .this _, c, _ => by
    rw [Expr.relabel, Expr.visits, Expr.visits, classKind_relabel]
    split <;> rfl
  | .super _ _, _, _ => rfl

theorem visitsExprs_relabel : ∀ (exprs : List Expr) (c : Context) (os : List Origin),
    visitsExprs (relabelExprs μ exprs) (c.relabel μ es ds) (os.map (Origin.relabel μ)) =
      (visitsExprs exprs c os).map (Visit.relabel μ)
  | [], _, _ => rfl
  | e :: rest, c, os => by
    rw [relabelExprs, visitsExprs, e.visits_relabel, e.walk_relabel, visitsExprs_relabel rest,
      visitsExprs, List.map_append]

theorem FunctionDecl.visits_relabel : ∀ (d : FunctionDecl) (kind : FunctionKind) (c : Context)
    (os : List Origin), (d.relabel μ).visits kind (c.relabel μ es ds) (os.map (Origin.relabel μ)) =
      (d.visits kind c os).map (Visit.relabel μ)
  | .mk name line params body, kind, c, os => by
    have hbody := visitsStmts_relabel body
      (({ c with functionKind := kind }.openScope).parameters params)
      (.call (.mk name line params body) :: os)
    rw [← parameters_relabel, ← openScope_relabel] at hbody
    exact hbody

theorem Stmt.visits_relabel : ∀ (s : Stmt) (c : Context) (os : List Origin),
    (s.relabel μ).visits (c.relabel μ es ds) (os.map (Origin.relabel μ)) =
      (s.visits c os).map (Visit.relabel μ)
  | .expr value, c, os => value.visits_relabel c os
  | .print value, c, os => value.visits_relabel c os
  | .var _ none, _, _ => rfl
  | .var name (some value), c, os => by
    rw [Stmt.relabel, Stmt.visits, declare_relabel, value.visits_relabel, Stmt.visits]
  | .block body, c, os => visitsStmts_relabel body c.openScope (.block body :: os)
  | .branch condition thenBranch none, c, os => by
    rw [Stmt.relabel, Stmt.visits, condition.visits_relabel, condition.walk_relabel,
      thenBranch.visits_relabel, Stmt.visits, List.map_append]
  | .branch condition thenBranch (some elseBranch), c, os => by
    rw [Stmt.relabel, Stmt.visits, condition.visits_relabel, condition.walk_relabel,
      thenBranch.visits_relabel, thenBranch.walk_relabel, elseBranch.visits_relabel, Stmt.visits,
      List.map_append, List.map_append]
  | .loop condition body, c, os => by
    rw [Stmt.relabel, Stmt.visits, condition.visits_relabel, condition.walk_relabel,
      body.visits_relabel, Stmt.visits, List.map_append]
  | .function (.mk none line params body), c, os =>
    (FunctionDecl.mk none line params body).visits_relabel .function c os
  | .function (.mk (some name) line params body), c, os => by
    have hdecl : ((FunctionDecl.mk (some name) line params body).relabel μ).visits .function
        ((c.declareAndDefine name).relabel μ es ds) (os.map (Origin.relabel μ)) = _ :=
      FunctionDecl.visits_relabel ..
    rw [← declareAndDefine_relabel] at hdecl
    exact hdecl
  | .ret _ none, _, _ => rfl
  | .ret keyword (some value), c, os => by
    rw [Stmt.relabel, Stmt.visits, useReturn_relabel, value.visits_relabel, Stmt.visits]
  | .classDecl name superclass methods, c, os => by
    rw [Stmt.relabel, Stmt.visits, enterClass_relabel, methodOrigins_relabel,
      visitsMethods_relabel methods, Stmt.visits, List.map_append, declareAndDefine_relabel]
    cases superclass <;> rfl

theorem visitsStmts_relabel : ∀ (ss : List Stmt) (c : Context) (os : List Origin),
    visitsStmts (relabelStmts μ ss) (c.relabel μ es ds) (os.map (Origin.relabel μ)) =
      (visitsStmts ss c os).map (Visit.relabel μ)
  | [], _, _ => rfl
  | s :: rest, c, os => by
    rw [relabelStmts, visitsStmts, s.visits_relabel, s.walk_relabel, visitsStmts_relabel rest,
      visitsStmts, List.map_append]

theorem visitsMethods_relabel : ∀ (decls : List FunctionDecl) (c : Context) (os : List Origin),
    visitsMethods (relabelMethods μ decls) (c.relabel μ es ds) (os.map (Origin.relabel μ)) =
      (visitsMethods decls c os).map (Visit.relabel μ)
  | [], _, _ => rfl
  | d :: rest, c, os => by
    rw [relabelMethods, visitsMethods, methodKind_relabel, d.visits_relabel, d.walk_relabel,
      visitsMethods_relabel rest, visitsMethods, List.map_append]

end

end

end LoxLang
