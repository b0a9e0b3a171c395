import LoxLang.Proofs.Scope.Resolution
import LoxLang.Proofs.Scope.Surroundings
import LoxLang.Proofs.Store.Growth

/-!
The scopes of `this` and `super`. Wherever the static walk visits a reference, the scopes that have the
name `this` are those that stand for the frames of receivers, and the scopes that have the name `super`
are those for the frames of superclasses: no variable of a parsed tree is named so. So the distance of
`this` is that of the nearest receiver, and the distance of `super` that of the nearest superclass.
-/

namespace LoxLang

open Scope

namespace Scope

/-- A scope has the name that frames of its origin are for, and no other name of this sort. -/
structure Ties (scope : Bindings Bool) (o : Origin) : Prop where
  this : scope.contains "this" = o.isReceiver
  super : scope.contains "super" = o.isSuperclass

abbrev Tied (scopes : List (Bindings Bool)) (os : List Origin) : Prop :=
  List.Forall₂ Ties scopes os

def Visit.Tied (v : Visit) : Prop :=
  Scope.Tied v.scopes v.origins

variable {scopes : List (Bindings Bool)} {scope : Bindings Bool} {os : List Origin} {o : Origin}
  {name : String} {names : List String} {c c' : Context}

theorem contains_insert_of_ne {other : String} (hne : name ≠ other) (ready : Bool) :
    (scope.insert name ready).contains other = scope.contains other := by
  rw [Bool.eq_iff_iff, Bindings.contains_insert]
  simp [hne]

theorem Tied.mark (h : Tied scopes os) (hname : ¬Reserved name) (ready : Bool) :
    Tied (markIn name ready scopes) os := by
  cases h with
  | nil => exact .nil
  | cons hfirst hrest =>
      refine .cons ⟨?_, ?_⟩ hrest
      · rw [contains_insert_of_ne fun heq => hname (.inl heq), hfirst.this]
      · rw [contains_insert_of_ne fun heq => hname (.inr heq), hfirst.super]

theorem Tied.behind (h : Tied c.scopes os) (hbehind : c.Behind names c')
    (hnames : ∀ name ∈ names, ¬Reserved name) : Tied c'.scopes os := by
  rw [hbehind.scopes]
  clear hbehind
  generalize c.scopes = scopes at h
  induction names generalizing scopes with
  | nil => exact h
  | cons name names ih =>
      obtain ⟨hname, hrest⟩ := List.forall_mem_cons.mp hnames
      exact ih hrest _ (h.mark hname true)

theorem Tied.after (h : Tied c.scopes os) (hbehind : c.Behind [] c') : Tied c'.scopes os :=
  h.behind hbehind nofun

/-- A new scope is for a frame that code runs in. -/
theorem Tied.openScope (h : Tied c.scopes os) (hreceiver : o.isReceiver = false)
    (hsuperclass : o.isSuperclass = false) : Tied c.openScope.scopes (o :: os) :=
  .cons ⟨hreceiver.symm, hsuperclass.symm⟩ h

theorem Tied.enterClass {token : Token} (h : Tied c.scopes os) (hname : ¬Reserved token.lexeme)
    (superclass : Option Reference) :
    Tied (c.enterClass token superclass).scopes (methodOrigins superclass os) := by
  have hbody : ∀ {c : Context} {os : List Origin}, Tied c.scopes os →
      Tied (c.openScope.mark "this" true).scopes (.receiver :: os) := by
    intro c os h
    rw [Context.scopes_mark]
    exact .cons ⟨rfl, rfl⟩ h
  have hdeclared : Tied (({ c with classKind := .base } : Context).declareAndDefine token).scopes os := by
    rw [Context.scopes_declareAndDefine]
    exact h.mark hname true
  cases superclass with
  | none => exact hbody hdeclared
  | some ref =>
      have hused : ∀ {c : Context}, Tied c.scopes os →
          Tied ((({ c with classKind := .derived } : Context).useIdent ref).openScope.mark
            "super" true).scopes (.superclass :: os) := by
        intro c h
        rw [Context.scopes_mark]
        exact .cons ⟨rfl, rfl⟩ (Tied.after (c := { c with classKind := .derived }) h
          (Context.behind_useIdent ref _))
      unfold Context.enterClass
      dsimp only
      split
      · exact hbody (hused (hdeclared.after (Context.behind_report _ _ _)))
      · exact hbody (hused hdeclared)

end Scope

theorem Stmt.declares_spelled : ∀ (s : Stmt), s.Spelled → ∀ name ∈ s.declares, ¬Reserved name
  | .expr _, _ | .print _, _ | .block _, _ | .ret _ _, _ => nofun
  | .var _ none, h => List.forall_mem_singleton.mpr h
  | .var _ (some _), h => List.forall_mem_singleton.mpr h.1
  | .branch _ thenBranch none, h => thenBranch.declares_spelled h.2.1
  | .branch _ thenBranch (some elseBranch), h => List.forall_mem_append.mpr
    ⟨thenBranch.declares_spelled h.2.1.1, elseBranch.declares_spelled h.2.2.1⟩
  | .loop _ body, h => body.declares_spelled h.2.1
  | .function (.mk none _ _ _), _ => nofun
  | .function (.mk (some _) _ _ _), h => List.forall_mem_singleton.mpr h.2.1
  | .classDecl _ _ _, h => List.forall_mem_singleton.mpr h.1

mutual

/-- The visits of a parsed tree are in tied scopes if the tree is. -/
theorem Expr.visits_tied : ∀ (e : Expr) {c : Context} {os : List Origin}, e.Spelled →
    Tied c.scopes os → ∀ v ∈ e.visits c os, v.Tied
  | .literal _, _, _, _, _ => List.forall_mem_nil _
  | .group inner, _, _, hs, h => inner.visits_tied hs h
  | .unary _ right, _, _, hs, h => right.visits_tied hs h
  | .binary left _ right, c, _, hs, h => List.forall_mem_append.mpr
    ⟨left.visits_tied hs.1 h, right.visits_tied hs.2 (h.after (left.walk_behind c))⟩
  | .logical left _ right, c, _, hs, h => List.forall_mem_append.mpr
    ⟨left.visits_tied hs.1 h, right.visits_tied hs.2 (h.after (left.walk_behind c))⟩
  | .ident _, _, _, _, h => List.forall_mem_singleton.mpr h
  | .assign _ value, c, _, hs, h => List.forall_mem_append.mpr
    ⟨value.visits_tied hs.2 h, List.forall_mem_singleton.mpr (h.after (value.walk_behind c))⟩
  | .call callee _ arguments, c, _, hs, h => List.forall_mem_append.mpr
    ⟨callee.visits_tied hs.1 h, visitsExprs_tied arguments hs.2 (h.after (callee.walk_behind c))⟩
  | .function decl, _, _, hs, h => decl.visits_tied .function hs h
  | .get object _, _, _, hs, h => object.visits_tied hs h
  | .set object _ value, c, _, hs, h => List.forall_mem_append.mpr
    ⟨object.visits_tied hs.1 h, value.visits_tied hs.2 (h.after (object.walk_behind c))⟩
  | .this _, c, _, _, h => by
    rw [Expr.visits]
    split
    · exact List.forall_mem_nil _
    · exact List.forall_mem_singleton.mpr h
  | .super _ _, _, _, _, h => List.forall_mem_singleton.mpr h

theorem visitsExprs_tied : ∀ (es : List Expr) {c : Context} {os : List Origin}, SpelledExprs es →
    Tied c.scopes os → ∀ v ∈ visitsExprs es c os, v.Tied
  | [], _, _, _, _ => List.forall_mem_nil _
  | e :: rest, c, _, hs, h => List.forall_mem_append.mpr
    ⟨e.visits_tied hs.1 h, visitsExprs_tied rest hs.2 (h.after (e.walk_behind c))⟩

theorem FunctionDecl.visits_tied : ∀ (d : FunctionDecl) (kind : FunctionKind) {c : Context}
    {os : List Origin}, d.Spelled → Tied c.scopes os → ∀ v ∈ d.visits kind c os, v.Tied
  | .mk name line params body, kind, c, os, hs, h => by
    have hopened := Tied.openScope (c := { c with functionKind := kind })
      (o := .call (.mk name line params body)) h rfl rfl
    refine visitsStmts_tied body hs.2 (hopened.behind (Context.behind_parameters params _) ?_)
    exact List.forall_mem_map.mpr hs.1

theorem Stmt.visits_tied : ∀ (s : Stmt) {c : Context} {os : List Origin}, s.Spelled →
    Tied c.scopes os → ∀ v ∈ s.visits c os, v.Tied
  | .expr value, _, _, hs, h => value.visits_tied hs h
  | .print value, _, _, hs, h => value.visits_tied hs h
  | .var _ none, _, _, _, _ => List.forall_mem_nil _
  | .var name (some value), c, _, hs, h => by
    refine value.visits_tied hs.2 ?_
    rw [Context.scopes_declare]
    exact h.mark hs.1 false
  | .block body, _, _, hs, h => visitsStmts_tied body hs (h.openScope (o := .block body) rfl rfl)
  | .branch condition thenBranch none, c, _, hs, h => List.forall_mem_append.mpr
    ⟨condition.visits_tied hs.1 h, thenBranch.visits_tied hs.2.1 (h.after (condition.walk_behind c))⟩
  | .branch condition thenBranch (some elseBranch), c, _, hs, h => by
    have hcondition := h.after (condition.walk_behind c)
    refine List.forall_mem_append.mpr ⟨List.forall_mem_append.mpr ⟨condition.visits_tied hs.1 h,
      thenBranch.visits_tied hs.2.1.1 hcondition⟩, elseBranch.visits_tied hs.2.2.1 ?_⟩
    exact hcondition.behind (thenBranch.walk_behind _) (thenBranch.declares_spelled hs.2.1.1)
  | .loop condition body, c, _, hs, h => List.forall_mem_append.mpr
    ⟨condition.visits_tied hs.1 h, body.visits_tied hs.2.1 (h.after (condition.walk_behind c))⟩
  | .function (.mk none line params body), _, _, hs, h =>
    (FunctionDecl.mk none line params body).visits_tied .function hs.2.2 h
  | .function (.mk (some name) line params body), c, _, hs, h =>
    (FunctionDecl.mk (some name) line params body).visits_tied .function hs.2.2
      (h.behind (Context.behind_declareAndDefine name c) (List.forall_mem_singleton.mpr hs.2.1))
  | .ret _ none, _, _, _, _ => List.forall_mem_nil _
  | .ret keyword (some value), c, _, hs, h =>
    value.visits_tied hs (h.after (Context.behind_useReturn keyword true c))
  | .classDecl name superclass methods, c, _, hs, h => by
    refine List.forall_mem_append.mpr
      ⟨?_, visitsMethods_tied methods hs.2 (h.enterClass hs.1 superclass)⟩
    intro v hv
    obtain ⟨ref, -, rfl⟩ := Option.map_eq_some_iff.mp (Option.mem_toList.mp hv)
    exact h.behind (Context.behind_declareAndDefine name c) (List.forall_mem_singleton.mpr hs.1)

theorem visitsStmts_tied : ∀ (ss : List Stmt) {c : Context} {os : List Origin}, SpelledStmts ss →
    Tied c.scopes os → ∀ v ∈ visitsStmts ss c os, v.Tied
  | [], _, _, _, _ => List.forall_mem_nil _
  | s :: rest, c, _, hs, h => List.forall_mem_append.mpr ⟨s.visits_tied hs.1 h,
    visitsStmts_tied rest hs.2 (h.behind (s.walk_behind c) (s.declares_spelled hs.1))⟩

theorem visitsMethods_tied : ∀ (ds : List FunctionDecl) {c : Context} {os : List Origin},
    SpelledMethods ds → Tied c.scopes os → ∀ v ∈ visitsMethods ds c os, v.Tied
  | [], _, _, _, _ => List.forall_mem_nil _
  | d :: rest, c, _, hs, h => List.forall_mem_append.mpr ⟨d.visits_tied (methodKind d) hs.1 h,
    visitsMethods_tied rest hs.2 (h.after (d.walk_behind (methodKind d) c))⟩

end

end LoxLang
