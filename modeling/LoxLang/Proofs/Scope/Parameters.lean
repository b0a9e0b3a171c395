import LoxLang.Proofs.Scope.Accepted

/-!
The law of distinct parameters. In a tree without errors no function declares a parameter twice, however
deep the function is, so that a call gives each parameter an argument of its own.
-/

namespace LoxLang

open Scope

/-- The parameters of a function have different names. -/
def Law.distinct : Law where
  node _ _ := True
  function d _ := (d.params.map Token.lexeme).Nodup

namespace Scope

theorem not_mem_declared_of_error? {name : Token} {p : Path}
    (h : Place.error? ⟨.declaration name, p⟩ = none) : name.lexeme ∉ p.declared := by
  intro hmem
  rw [Place.error?, if_pos hmem] at h
  cases h

/-- Parameters without errors differ from one another and from what is declared before them. -/
theorem nodup_of_lawful_params {params : List Token} {p : Path} (hp : p.Direct) (hne : p ≠ [])
    (h : Lawful (placesParams params p)) :
    (params.map Token.lexeme).Nodup ∧ ∀ name ∈ p.declared, name ∉ params.map Token.lexeme := by
  induction params generalizing p with
  | nil => simp
  | cons name params ih =>
      obtain ⟨hname, hrest⟩ := lawful_cons.mp h
      have hnew := not_mem_declared_of_error? hname
      obtain ⟨hnodup, hbefore⟩ := ih hp.behind (mt (Path.behind_eq_nil _).mp hne) hrest
      rw [hp.declared_behind, if_neg hne] at hbefore
      rw [List.map_cons, List.nodup_cons]
      refine ⟨⟨hbefore name.lexeme (by simp), hnodup⟩, ?_⟩
      intro other hother hmem
      rcases List.mem_cons.mp hmem with rfl | hmem
      · exact hnew hother
      · exact hbefore other (by simp [hother]) hmem

end Scope

mutual

theorem Expr.obeys_distinct : ∀ (e : Expr) {p : Path} (k : ClassKind), Lawful (e.places p) →
    e.Obeys .distinct k
  | .literal _, _, _, _ | .ident _, _, _, _ | .this _, _, _, _ | .super _ _, _, _, _ =>
    ⟨trivial, trivial⟩
  | .group inner, _, k, h => ⟨trivial, inner.obeys_distinct k h⟩
  | .unary _ right, _, k, h => ⟨trivial, right.obeys_distinct k h⟩
  | .binary left _ right, _, k, h =>
    ⟨trivial, left.obeys_distinct k (lawful_append.mp h).1,
      right.obeys_distinct k (lawful_append.mp h).2⟩
  | .logical left _ right, _, k, h =>
    ⟨trivial, left.obeys_distinct k (lawful_append.mp h).1,
      right.obeys_distinct k (lawful_append.mp h).2⟩
  | .assign _ value, _, k, h => ⟨trivial, value.obeys_distinct k h⟩
  | .call callee _ arguments, _, k, h =>
    ⟨trivial, callee.obeys_distinct k (lawful_append.mp h).1,
      obeysExprs_distinct arguments k (lawful_append.mp h).2⟩
  | .function decl, _, k, h => ⟨trivial, decl.obeys_distinct false false k h⟩
  | .get object _, _, k, h => ⟨trivial, object.obeys_distinct k h⟩
  | .set object _ value, _, k, h =>
    ⟨trivial, object.obeys_distinct k (lawful_append.mp h).1,
      value.obeys_distinct k (lawful_append.mp h).2⟩

theorem obeysExprs_distinct : ∀ (es : List Expr) {p : Path} (k : ClassKind),
    Lawful (placesExprs es p) → ObeysExprs .distinct k es
  | [], _, _, _ => trivial
  | e :: rest, _, k, h =>
    ⟨e.obeys_distinct k (lawful_append.mp h).1, obeysExprs_distinct rest k (lawful_append.mp h).2⟩

theorem FunctionDecl.obeys_distinct : ∀ (d : FunctionDecl) (asMethod isInitializer : Bool) {p : Path}
    (k : ClassKind), Lawful (d.places asMethod p) → d.Obeys .distinct k isInitializer
  | .mk _ _ params body, _, _, _, k, h => by
    obtain ⟨hparams, hbody⟩ := lawful_append.mp h
    have hnodup := nodup_of_lawful_params .function (List.cons_ne_nil _ _) hparams
    exact ⟨hnodup.1, obeysStmts_distinct body k hbody⟩

theorem Stmt.obeys_distinct : ∀ (s : Stmt) {p : Path} (k : ClassKind), Lawful (s.places p) →
    s.Obeys .distinct k
  | .expr value, _, k, h | .print value, _, k, h => ⟨trivial, value.obeys_distinct k h⟩
  | .var _ none, _, _, _ | .ret _ none, _, _, _ => ⟨trivial, trivial⟩
  | .var _ (some value), _, k, h | .ret _ (some value), _, k, h =>
    ⟨trivial, value.obeys_distinct k (lawful_cons.mp h).2⟩
  | .block body, _, k, h => ⟨trivial, obeysStmts_distinct body k h⟩
  | .branch condition thenBranch none, _, k, h =>
    ⟨trivial, condition.obeys_distinct k (lawful_append.mp h).1,
      thenBranch.obeys_distinct k (lawful_append.mp h).2⟩
  | .branch condition thenBranch (some elseBranch), _, k, h => by
    obtain ⟨hcondition, hbranches⟩ := lawful_append.mp h
    obtain ⟨hthen, helse⟩ := lawful_append.mp hbranches
    exact ⟨trivial, condition.obeys_distinct k hcondition, thenBranch.obeys_distinct k hthen,
      elseBranch.obeys_distinct k helse⟩
  | .loop condition body, _, k, h =>
    ⟨trivial, condition.obeys_distinct k (lawful_append.mp h).1,
      body.obeys_distinct k (lawful_append.mp h).2⟩
  | .function (.mk (some name) line params body), _, k, h =>
    ⟨trivial, (FunctionDecl.mk (some name) line params body).obeys_distinct false false k
      (lawful_cons.mp h).2⟩
  | .function (.mk none line params body), _, k, h =>
    ⟨trivial, (FunctionDecl.mk none line params body).obeys_distinct false false k h⟩
  | .classDecl _ none methods, _, _, h =>
    ⟨trivial, obeysMethods_distinct methods _ (lawful_cons.mp h).2⟩
  | .classDecl _ (some _) methods, _, _, h => by
    obtain ⟨-, h⟩ := lawful_cons.mp h
    obtain ⟨-, h⟩ := lawful_cons.mp h
    obtain ⟨-, h⟩ := lawful_cons.mp h
    exact ⟨trivial, obeysMethods_distinct methods _ h⟩

theorem obeysStmts_distinct : ∀ (ss : List Stmt) {p : Path} (k : ClassKind),
    Lawful (placesStmts ss p) → ObeysStmts .distinct k ss
  | [], _, _, _ => trivial
  | s :: rest, _, k, h =>
    ⟨s.obeys_distinct k (lawful_append.mp h).1, obeysStmts_distinct rest k (lawful_append.mp h).2⟩

theorem obeysMethods_distinct : ∀ (ds : List FunctionDecl) {p : Path} (k : ClassKind),
    Lawful (placesMethods ds p) → ObeysMethods .distinct k ds
  | [], _, _, _ => trivial
  | d :: rest, _, k, h =>
    ⟨d.obeys_distinct true d.isInitializer k (lawful_append.mp h).1,
      obeysMethods_distinct rest k (lawful_append.mp h).2⟩

end

end LoxLang
