import LoxLang.Eval.Call
import LoxLang.Proofs.Scope.Law
import LoxLang.Proofs.Scope.Resolution
import LoxLang.Proofs.Scope.Verdicts

/-!
The law of accepted programs. A tree that is read from source text and that the static walk finds no
error in never gives `this` or `super` a new value, has them only where there is a method or a
superclass for them, and returns only from functions, and from no initializer with a value. Methods are
told to be initializers by their names, by the walk as well as when their class is made.
-/

namespace LoxLang

open Scope

/-! ### Returns -/

mutual

/-- The returns from the function that a statement is in, and whether they have a value. -/
def Stmt.returns : Stmt → List Bool
  | .block body => returnsStmts body
  | .branch _ thenBranch none => thenBranch.returns
  | .branch _ thenBranch (some elseBranch) => thenBranch.returns ++ elseBranch.returns
  | .loop _ body => body.returns
  | .ret _ value => [value.isSome]
  | _ => []

def returnsStmts : List Stmt → List Bool
  | [] => []
  | s :: rest => s.returns ++ returnsStmts rest

end

namespace Scope

/-- Places without errors. -/
def Lawful (ps : List Place) : Prop :=
  ∀ place ∈ ps, place.error? = none

variable {p : Path} {ps ps' : List Place} {place : Place}

theorem lawful_append : Lawful (ps ++ ps') ↔ Lawful ps ∧ Lawful ps' :=
  List.forall_mem_append

theorem lawful_cons : Lawful (place :: ps) ↔ place.error? = none ∧ Lawful ps :=
  List.forall_mem_cons

/-- A return may stand in a function, with a value unless the function is an initializer. -/
def Path.Permits (p : Path) (hasValue : Bool) : Prop :=
  p.function? ≠ none ∧ (hasValue = true → p.function? ≠ some (true, FunctionDecl.initializerName))

theorem permits_of_error? {keyword : Token} {hasValue : Bool}
    (h : Place.error? ⟨.ret keyword hasValue, p⟩ = none) : p.Permits hasValue := by
  rw [Place.error?] at h
  split at h
  case isTrue => cases h
  case isFalse hsome =>
    split at h
    case isTrue => cases h
    case isFalse hinit => exact ⟨hsome, fun hvalue hmethod => hinit ⟨hvalue, hmethod⟩⟩

theorem Path.permits_behind (names : List String) (p : Path) (hasValue : Bool) :
    (p.behind names).Permits hasValue ↔ p.Permits hasValue := by
  rw [Path.Permits, Path.Permits, Path.function?_behind]

end Scope

mutual

/-- The returns of a statement without errors are permitted where the statement stands. -/
theorem Stmt.returns_permitted : ∀ (s : Stmt) {p : Path}, Lawful (s.places p) →
    ∀ b ∈ s.returns, p.Permits b
  | .expr _, _, _ | .print _, _, _ | .var _ _, _, _ | .function _, _, _ | .classDecl _ _ _, _, _ => nofun
  | .block body, _, h => returnsStmts_permitted (p := .block [] :: _) body h
  | .branch _ thenBranch none, _, h => thenBranch.returns_permitted (lawful_append.mp h).2
  | .branch _ thenBranch (some elseBranch), _, h => by
    obtain ⟨-, h⟩ := lawful_append.mp h
    obtain ⟨hthen, helse⟩ := lawful_append.mp h
    refine List.forall_mem_append.mpr ⟨thenBranch.returns_permitted hthen, fun b hb => ?_⟩
    exact (Path.permits_behind _ _ b).mp (elseBranch.returns_permitted helse b hb)
  | .loop _ body, _, h => body.returns_permitted (lawful_append.mp h).2
  | .ret _ none, _, h => by
    rintro b hb
    obtain rfl := List.mem_singleton.mp hb
    exact permits_of_error? (h _ (List.mem_cons_self ..))
  | .ret _ (some _), _, h => by
    rintro b hb
    obtain rfl := List.mem_singleton.mp hb
    exact permits_of_error? (h _ (List.mem_cons_self ..))

theorem returnsStmts_permitted : ∀ (ss : List Stmt) {p : Path}, Lawful (placesStmts ss p) →
    ∀ b ∈ returnsStmts ss, p.Permits b
  | [], _, _ => nofun
  | s :: rest, _, h => by
    obtain ⟨hs, hrest⟩ := lawful_append.mp h
    refine List.forall_mem_append.mpr ⟨s.returns_permitted hs, fun b hb => ?_⟩
    exact (Path.permits_behind _ _ b).mp (returnsStmts_permitted rest hrest b hb)

end

/-! ### The law -/

/-- What is right of a node inside of a kind of class. -/
structure Node.Accepted (node : Node) (k : ClassKind) : Prop where
  target : ∀ name, node.target? = some name → ¬Reserved name
  this : ∀ ref, node = .expr (.this ref) → ref.name.lexeme = receiverName ∧ k ≠ .none
  super : ∀ ref method, node = .expr (.super ref method) →
    ref.name.lexeme = superclassName ∧ k = .derived

/-- An initializer returns no value. -/
def Law.accepted : Law where
  node := Node.Accepted
  function d isInitializer := isInitializer = true → true ∉ returnsStmts d.body

theorem Law.accepted_writes {name : String} (h : Law.accepted.Writes name) : ¬Reserved name := by
  obtain ⟨node, k, hnode, htarget⟩ := h
  exact hnode.target name htarget

theorem Law.this_unwritten : ¬Law.accepted.Writes receiverName :=
  fun h => accepted_writes h (.inl rfl)

theorem Law.super_unwritten : ¬Law.accepted.Writes superclassName :=
  fun h => accepted_writes h (.inr rfl)

theorem Stmt.accepted {s : Stmt} (hs : s.Spelled) (k : ClassKind) : Node.Accepted (.stmt s) k := by
  constructor
  · exact fun _ hname => not_reserved_of_declared hs hname
  · rintro _ ⟨⟩
  · rintro _ _ ⟨⟩

/-- An expression that the law asks nothing of. -/
def Expr.isPlain : Expr → Bool
  | .assign _ _ | .this _ | .super _ _ => false
  | _ => true

theorem Expr.accepted_of_plain {e : Expr} (h : e.isPlain = true) (k : ClassKind) :
    Node.Accepted (.expr e) k := by
  constructor
  · intro name hname
    cases e <;> cases hname
    cases h
  · rintro ref ⟨⟩
    cases h
  · rintro ref method ⟨⟩
    cases h

theorem Expr.accepted_this {ref : Reference} {p : Path} (hs : ref.name.lexeme = "this")
    (h : Place.error? ⟨.this ref, p⟩ = none) : Node.Accepted (.expr (.this ref)) p.classKind := by
  constructor
  · rintro name ⟨⟩
  · rintro _ ⟨⟩
    refine ⟨hs, fun hkind => ?_⟩
    rw [Place.error?, if_pos (Path.classKind_eq_none.mp hkind)] at h
    cases h
  · rintro _ _ ⟨⟩

theorem Expr.accepted_super {ref : Reference} {method : Token} {p : Path}
    (hs : ref.name.lexeme = "super") (h : Place.error? ⟨.super ref, p⟩ = none) :
    Node.Accepted (.expr (.super ref method)) p.classKind := by
  constructor
  · rintro name ⟨⟩
  · rintro _ ⟨⟩
  · rintro _ _ ⟨⟩
    refine ⟨hs, ?_⟩
    rw [Place.error?] at h
    split at h
    · cases h
    · cases h
    case h_3 hclass => rw [Path.classKind, hclass]

mutual

/-- What is spelled as parsed trees are and has no place with an error obeys the law. -/
theorem Expr.obeys_accepted : ∀ (e : Expr) {p : Path}, e.Spelled → Lawful (e.places p) →
    e.Obeys .accepted p.classKind
  | .literal _, _, _, _ => ⟨Expr.accepted_of_plain rfl _, trivial⟩
  | .ident _, _, _, _ => ⟨Expr.accepted_of_plain rfl _, trivial⟩
  | .group inner, _, hs, h => ⟨Expr.accepted_of_plain rfl _, inner.obeys_accepted hs h⟩
  | .unary _ right, _, hs, h => ⟨Expr.accepted_of_plain rfl _, right.obeys_accepted hs h⟩
  | .binary left _ right, _, hs, h =>
    ⟨Expr.accepted_of_plain rfl _, left.obeys_accepted hs.1 (lawful_append.mp h).1,
      right.obeys_accepted hs.2 (lawful_append.mp h).2⟩
  | .logical left _ right, _, hs, h =>
    ⟨Expr.accepted_of_plain rfl _, left.obeys_accepted hs.1 (lawful_append.mp h).1,
      right.obeys_accepted hs.2 (lawful_append.mp h).2⟩
  | .assign _ value, _, hs, h => by
    refine ⟨⟨?_, by rintro _ ⟨⟩, by rintro _ _ ⟨⟩⟩, value.obeys_accepted hs.2 h⟩
    rintro _ ⟨⟩
    exact hs.1
  | .call callee _ arguments, _, hs, h =>
    ⟨Expr.accepted_of_plain rfl _, callee.obeys_accepted hs.1 (lawful_append.mp h).1,
      obeysExprs_accepted arguments hs.2 (lawful_append.mp h).2⟩
  | .function decl, _, hs, h =>
    ⟨Expr.accepted_of_plain rfl _, decl.obeys_accepted false false nofun hs h⟩
  | .get object _, _, hs, h => ⟨Expr.accepted_of_plain rfl _, object.obeys_accepted hs h⟩
  | .set object _ value, _, hs, h =>
    ⟨Expr.accepted_of_plain rfl _, object.obeys_accepted hs.1 (lawful_append.mp h).1,
      value.obeys_accepted hs.2 (lawful_append.mp h).2⟩
  | .this _, _, hs, h => ⟨Expr.accepted_this hs (h _ (List.mem_cons_self ..)), trivial⟩
  | .super _ _, _, hs, h => ⟨Expr.accepted_super hs (h _ (List.mem_cons_self ..)), trivial⟩

theorem obeysExprs_accepted : ∀ (es : List Expr) {p : Path}, SpelledExprs es →
    Lawful (placesExprs es p) → ObeysExprs .accepted p.classKind es
  | [], _, _, _ => trivial
  | e :: rest, _, hs, h =>
    ⟨e.obeys_accepted hs.1 (lawful_append.mp h).1,
      obeysExprs_accepted rest hs.2 (lawful_append.mp h).2⟩

theorem FunctionDecl.obeys_accepted : ∀ (d : FunctionDecl) {p : Path} (asMethod isInitializer : Bool),
    (isInitializer = true → asMethod = true ∧ d.isInitializer = true) → d.Spelled →
      Lawful (d.places asMethod p) → d.Obeys .accepted p.classKind isInitializer
  | .mk name line params body, p, asMethod, isInitializer, hflag, hs, h => by
    obtain ⟨-, hbody⟩ := lawful_append.mp h
    constructor
    · intro hinit hvalue
      obtain ⟨rfl, hname⟩ := hflag hinit
      refine (returnsStmts_permitted body hbody true hvalue).2 rfl ?_
      rw [Path.function?_behind]
      exact congrArg (fun name => some (true, name)) (beq_iff_eq.mp hname)
    · have hinside := obeysStmts_accepted body hs.2 hbody
      rw [Path.classKind_behind] at hinside
      exact hinside

theorem Stmt.obeys_accepted : ∀ (s : Stmt) {p : Path}, s.Spelled → Lawful (s.places p) →
    s.Obeys .accepted p.classKind
  | .expr value, _, hs, h | .print value, _, hs, h => ⟨Stmt.accepted hs _, value.obeys_accepted hs h⟩
  | .var _ none, _, hs, _ => ⟨Stmt.accepted hs _, trivial⟩
  | .var name (some value), p, hs, h =>
    ⟨Stmt.accepted hs _,
      value.obeys_accepted (p := .initializer name.lexeme :: p) hs.2 (lawful_cons.mp h).2⟩
  | .block body, p, hs, h =>
    ⟨Stmt.accepted hs _, obeysStmts_accepted (p := .block [] :: p) body hs h⟩
  | .branch condition thenBranch none, _, hs, h =>
    ⟨Stmt.accepted hs _, condition.obeys_accepted hs.1 (lawful_append.mp h).1,
      thenBranch.obeys_accepted hs.2.1 (lawful_append.mp h).2⟩
  | .branch condition thenBranch (some elseBranch), p, hs, h => by
    obtain ⟨hcondition, hbranches⟩ := lawful_append.mp h
    obtain ⟨hthen, helse⟩ := lawful_append.mp hbranches
    have helse := elseBranch.obeys_accepted hs.2.2.1 helse
    rw [Path.classKind_behind] at helse
    exact ⟨Stmt.accepted hs _, condition.obeys_accepted hs.1 hcondition,
      thenBranch.obeys_accepted hs.2.1.1 hthen, helse⟩
  | .loop condition body, _, hs, h =>
    ⟨Stmt.accepted hs _, condition.obeys_accepted hs.1 (lawful_append.mp h).1,
      body.obeys_accepted hs.2.1 (lawful_append.mp h).2⟩
  | .function (.mk (some name) line params body), _, hs, h =>
    ⟨Stmt.accepted hs _, (FunctionDecl.mk (some name) line params body).obeys_accepted false false nofun
      hs.2.2 (lawful_cons.mp h).2⟩
  | .function (.mk none line params body), _, hs, h =>
    ⟨Stmt.accepted hs _,
      (FunctionDecl.mk none line params body).obeys_accepted false false nofun hs.2.2 h⟩
  | .ret _ none, _, hs, _ => ⟨Stmt.accepted hs _, trivial⟩
  | .ret _ (some value), _, hs, h =>
    ⟨Stmt.accepted hs _, value.obeys_accepted hs (lawful_cons.mp h).2⟩
  | .classDecl name none methods, p, hs, h =>
    ⟨Stmt.accepted hs _,
      obeysMethods_accepted (p := .classBody false :: p) methods hs.2 (lawful_cons.mp h).2⟩
  | .classDecl name (some superclass) methods, p, hs, h => by
    obtain ⟨-, h⟩ := lawful_cons.mp h
    obtain ⟨-, h⟩ := lawful_cons.mp h
    obtain ⟨-, h⟩ := lawful_cons.mp h
    exact ⟨Stmt.accepted hs _, obeysMethods_accepted (p := .classBody true :: p) methods hs.2 h⟩

theorem obeysStmts_accepted : ∀ (ss : List Stmt) {p : Path}, SpelledStmts ss →
    Lawful (placesStmts ss p) → ObeysStmts .accepted p.classKind ss
  | [], _, _, _ => trivial
  | s :: rest, _, hs, h => by
    have hrest := obeysStmts_accepted rest hs.2 (lawful_append.mp h).2
    rw [Path.classKind_behind] at hrest
    exact ⟨s.obeys_accepted hs.1 (lawful_append.mp h).1, hrest⟩

theorem obeysMethods_accepted : ∀ (ds : List FunctionDecl) {p : Path}, SpelledMethods ds →
    Lawful (placesMethods ds p) → ObeysMethods .accepted p.classKind ds
  | [], _, _, _ => trivial
  | d :: rest, _, hs, h =>
    ⟨d.obeys_accepted true d.isInitializer (fun hinit => ⟨rfl, hinit⟩) hs.1 (lawful_append.mp h).1,
      obeysMethods_accepted rest hs.2 (lawful_append.mp h).2⟩

end

end LoxLang
