import LoxLang.Proofs.Grammar.Acceptance
import LoxLang.Proofs.Grammar.References
import LoxLang.Proofs.Scope.Verdicts
import LoxLang.Proofs.Scope.Visits

/-!
The table of distances as a function of the text. A use is an occurrence of a name with the constructs
around it; its address is the number of scopes between it and the nearest one in which the name has
been declared before, by a declaration around the use, or as a parameter. No walk and no context has a
part in these definitions, and the scopes of a use are told from its path alone.

What the walk enters for a program is then the entries of its uses, one after the other, whether the
program has static errors or not. For a program that the parser has read, the entry that is found under
the identity of a use is that of the use itself: no other use of the same name interferes.
-/

namespace LoxLang

namespace Scope

/-- The names declared in the scopes around a place, the innermost scope first. The top level has no
scope, a class has one for `this` and, around it, one for `super` if it has a superclass. A variable is
declared in its own initializer. -/
def Path.scopes : Path → List (List String)
  | [] => []
  | .block names :: p => names :: scopes p
  | .function _ _ names :: p => names :: scopes p
  | .initializer name :: p => (scopes p).modifyHead (· ++ [name])
  | .classBody derived :: p => ["this"] :: if derived then ["super"] :: scopes p else scopes p

/-- An occurrence of a name that is to be bound. -/
structure Use where
  ref : Reference
  /-- It is `this`, which has no address outside of classes. -/
  ofReceiver : Bool
  path : Path

namespace Use

/-- The number of scopes between a use and the nearest one with its name. -/
def address? (u : Use) : Option Nat :=
  if u.ofReceiver = true ∧ u.path.class? = none then none
  else u.path.scopes.findIdx? (u.ref.name.lexeme ∈ ·)

def entry? (u : Use) : Option (Identity × Nat) :=
  u.address?.map fun d => (u.ref.id, d)

/-- The scope that is `d` scopes out has the name of a use, and no nearer one has. -/
structure BoundAt (u : Use) (d : Nat) : Prop where
  placed : u.ofReceiver = true → u.path.class? ≠ none
  declared : ∃ names, u.path.scopes[d]? = some names ∧ u.ref.name.lexeme ∈ names
  nearest : ∀ k < d, ∀ names, u.path.scopes[k]? = some names → u.ref.name.lexeme ∉ names

theorem address?_eq_some_iff {u : Use} {d : Nat} : u.address? = some d ↔ u.BoundAt d := by
  rw [address?]
  by_cases hplaced : u.ofReceiver = true ∧ u.path.class? = none
  · rw [if_pos hplaced]
    constructor
    · intro h
      cases h
    · intro h
      exact absurd hplaced.2 (h.placed hplaced.1)
  · rw [if_neg hplaced, List.findIdx?_eq_some_iff_getElem]
    constructor
    · rintro ⟨hd, hname, hnearest⟩
      constructor
      · exact fun hthis hclass => hplaced ⟨hthis, hclass⟩
      · exact ⟨_, List.getElem?_eq_getElem hd, of_decide_eq_true hname⟩
      · intro k hk names hnames
        obtain ⟨_, rfl⟩ := List.getElem?_eq_some_iff.mp hnames
        simpa using hnearest k hk
    · intro h
      obtain ⟨names, hnames, hname⟩ := h.declared
      obtain ⟨hd, rfl⟩ := List.getElem?_eq_some_iff.mp hnames
      refine ⟨hd, decide_eq_true hname, ?_⟩
      intro k hk
      simpa using h.nearest k hk _ (List.getElem?_eq_getElem _)

end Use

end Scope

open Scope

/-! ### The uses of a tree -/

mutual

def Expr.uses : Expr → Path → List Use
  | .literal _, _ => []
  | .group inner, p => inner.uses p
  | .unary _ right, p => right.uses p
  | .binary left _ right, p => left.uses p ++ right.uses p
  | .logical left _ right, p => left.uses p ++ right.uses p
  | .ident ref, p => [⟨ref, false, p⟩]
  | .assign ref value, p => value.uses p ++ [⟨ref, false, p⟩]
  | .call callee _ arguments, p => callee.uses p ++ usesExprs arguments p
  | .function decl, p => decl.uses false p
  | .get object _, p => object.uses p
  | .set object _ value, p => object.uses p ++ value.uses p
  | .this ref, p => [⟨ref, true, p⟩]
  | .super ref _, p => [⟨ref, false, p⟩]

def usesExprs : List Expr → Path → List Use
  | [], _ => []
  | e :: rest, p => e.uses p ++ usesExprs rest p

/-- The body of a function stands behind its parameters, in the same scope. -/
def FunctionDecl.uses : FunctionDecl → Bool → Path → List Use
  | .mk name line params body, asMethod, p =>
    usesStmts body
      (Path.behind (params.map Token.lexeme)
        (.function asMethod (FunctionDecl.mk name line params body).name [] :: p))

/-- A function and a class are declared in their own bodies, and a class in its superclass clause. -/
def Stmt.uses : Stmt → Path → List Use
  | .expr value, p => value.uses p
  | .print value, p => value.uses p
  | .var _ none, _ => []
  | .var name (some value), p => value.uses (.initializer name.lexeme :: p)
  | .block body, p => usesStmts body (.block [] :: p)
  | .branch condition thenBranch none, p => condition.uses p ++ thenBranch.uses p
  | .branch condition thenBranch (some elseBranch), p =>
    condition.uses p ++
      (thenBranch.uses p ++ elseBranch.uses (Path.behind thenBranch.declares p))
  | .loop condition body, p => condition.uses p ++ body.uses p
  | .function decl, p => decl.uses false (Path.behind (Stmt.function decl).declares p)
  | .ret _ none, _ => []
  | .ret _ (some value), p => value.uses p
  | .classDecl name superclass methods, p =>
    (superclass.map fun ref => ⟨ref, false, Path.behind [name.lexeme] p⟩).toList ++
      usesMethods methods (.classBody superclass.isSome :: Path.behind [name.lexeme] p)

def usesStmts : List Stmt → Path → List Use
  | [], _ => []
  | s :: rest, p => s.uses p ++ usesStmts rest (Path.behind s.declares p)

def usesMethods : List FunctionDecl → Path → List Use
  | [], _ => []
  | d :: rest, p => d.uses true p ++ usesMethods rest p

end

mutual

/-- The uses of a tree are its references, all of them and in the same order. -/
theorem Expr.references_uses : ∀ (e : Expr) (p : Path), (e.uses p).map Use.ref = e.references
  | .literal _, _ => rfl
  | .group inner, p => inner.references_uses p
  | .unary _ right, p => right.references_uses p
  | .binary left _ right, p => by
    simp [Expr.uses, Expr.references, left.references_uses, right.references_uses]
  | .logical left _ right, p => by
    simp [Expr.uses, Expr.references, left.references_uses, right.references_uses]
  | .ident _, _ => rfl
  | .assign _ value, p => by simp [Expr.uses, Expr.references, value.references_uses]
  | .call callee _ arguments, p => by
    simp [Expr.uses, Expr.references, callee.references_uses, references_usesExprs arguments]
  | .function decl, p => decl.references_uses false p
  | .get object _, p => object.references_uses p
  | .set object _ value, p => by
    simp [Expr.uses, Expr.references, object.references_uses, value.references_uses]
  | .this _, _ => rfl
  | .super _ _, _ => rfl

theorem references_usesExprs : ∀ (es : List Expr) (p : Path),
    (usesExprs es p).map Use.ref = referencesExprs es
  | [], _ => rfl
  | e :: rest, p => by
    simp [usesExprs, referencesExprs, e.references_uses, references_usesExprs rest]

theorem FunctionDecl.references_uses : ∀ (d : FunctionDecl) (asMethod : Bool) (p : Path),
    (d.uses asMethod p).map Use.ref = d.references
  | .mk _ _ _ body, _, _ => references_usesStmts body _

theorem Stmt.references_uses : ∀ (s : Stmt) (p : Path), (s.uses p).map Use.ref = s.references
  | .expr value, p => value.references_uses p
  | .print value, p => value.references_uses p
  | .var _ none, _ => rfl
  | .var _ (some value), _ => value.references_uses _
  | .block body, _ => references_usesStmts body _
  | .branch condition thenBranch none, p => by
    simp [Stmt.uses, Stmt.references, condition.references_uses, thenBranch.references_uses]
  | .branch condition thenBranch (some elseBranch), p => by
    simp [Stmt.uses, Stmt.references, condition.references_uses, thenBranch.references_uses,
      elseBranch.references_uses]
  | .loop condition body, p => by
    simp [Stmt.uses, Stmt.references, condition.references_uses, body.references_uses]
  | .function decl, _ => decl.references_uses false _
  | .ret _ none, _ => rfl
  | .ret _ (some value), p => value.references_uses p
  | .classDecl _ none methods, _ => references_usesMethods methods _
  | .classDecl _ (some _) methods, p => by
    simp [Stmt.uses, Stmt.references, references_usesMethods methods]

theorem references_usesStmts : ∀ (ss : List Stmt) (p : Path),
    (usesStmts ss p).map Use.ref = referencesStmts ss
  | [], _ => rfl
  | s :: rest, p => by
    simp [usesStmts, referencesStmts, s.references_uses, references_usesStmts rest]

theorem references_usesMethods : ∀ (ds : List FunctionDecl) (p : Path),
    (usesMethods ds p).map Use.ref = referencesMethods ds
  | [], _ => rfl
  | d :: rest, p => by
    simp [usesMethods, referencesMethods, d.references_uses, references_usesMethods rest]

end

/-! ### The scopes of the walk -/

namespace Scope

/-- A scope has exactly the given names, ready or not. -/
def Holds (scope : Bindings Bool) (names : List String) : Prop :=
  ∀ name, scope.contains name = true ↔ name ∈ names

theorem holds_empty : Holds [] [] := by
  simp [Holds, Bindings.contains_nil]

theorem holds_single (name : String) : Holds [(name, true)] [name] := by
  intro other
  simp only [Bindings.contains_iff, Bindings.find?, List.mem_singleton, eq_comm (a := other)]
  split <;> simp [*]

theorem Holds.insert {scope : Bindings Bool} {names : List String} (h : Holds scope names)
    (name : String) (ready : Bool) : Holds (scope.insert name ready) (names ++ [name]) := by
  intro other
  rw [Bindings.contains_insert, h other]
  simp [or_comm, eq_comm]

/-- What the walk knows of a place: the names in the scopes around it, and the kind of class. -/
structure Context.Knows (c : Context) (p : Path) : Prop where
  scopes : List.Forall₂ Holds c.scopes p.scopes
  classKind : c.classKind = p.classKind

theorem Path.scopes_behind {p : Path} (h : p.Direct) (names : List String) :
    (p.behind names).scopes = p.scopes.modifyHead (· ++ names) := by
  cases h <;> rfl

theorem forall₂_holds_markIn {scopes : List (Bindings Bool)} {names : List (List String)}
    (h : List.Forall₂ Holds scopes names) (name : String) (ready : Bool) :
    List.Forall₂ Holds (markIn name ready scopes) (names.modifyHead (· ++ [name])) := by
  cases h with
  | nil => exact .nil
  | cons hscope hrest => exact .cons (hscope.insert name ready) hrest

theorem forall₂_holds_markAll {scopes : List (Bindings Bool)} {names : List (List String)}
    (h : List.Forall₂ Holds scopes names) (declared : List String) :
    List.Forall₂ Holds (markAll declared scopes) (names.modifyHead (· ++ declared)) := by
  induction declared generalizing scopes names with
  | nil =>
      have hnone : names.modifyHead (· ++ []) = names := by cases names <;> simp
      rwa [hnone]
  | cons name declared ih =>
      have hrest := ih (forall₂_holds_markIn h name true)
      have hboth : (names.modifyHead (· ++ [name])).modifyHead (· ++ declared) =
          names.modifyHead (· ++ name :: declared) := by cases names <;> simp
      rwa [hboth] at hrest

namespace Context

variable {c c' : Context} {p : Path} {names : List String}

theorem Knows.stay (h : c.Knows p) (hb : c.Behind [] c') : c'.Knows p :=
  ⟨hb.scopes ▸ h.scopes, hb.classKind.trans h.classKind⟩

theorem Knows.behind (h : c.Knows p) (hdirect : p.Direct) (hb : c.Behind names c') :
    c'.Knows (p.behind names) where
  scopes := by
    rw [hb.scopes, Path.scopes_behind hdirect]
    exact forall₂_holds_markAll h.scopes names
  classKind := by rw [hb.classKind, h.classKind, Path.classKind_behind]

theorem Knows.initializer (h : c.Knows p) (name : Token) :
    (c.declare name).Knows (.initializer name.lexeme :: p) where
  scopes := by
    rw [scopes_declare]
    exact forall₂_holds_markIn h.scopes name.lexeme false
  classKind := by
    have hkind : (c.declare name).classKind = c.classKind := by
      unfold declare
      dsimp only
      split <;> exact classKind_mark _ _ c
    exact hkind.trans h.classKind

theorem Knows.block (h : c.Knows p) : c.openScope.Knows (.block [] :: p) :=
  ⟨.cons holds_empty h.scopes, h.classKind⟩

theorem Knows.function (h : c.Knows p) (kind : FunctionKind) (asMethod : Bool) (name : String)
    (params : List Token) :
    (({ c with functionKind := kind } : Context).openScope.parameters params).Knows
      (Path.behind (params.map Token.lexeme) (.function asMethod name [] :: p)) := by
  have hopen : ({ c with functionKind := kind } : Context).openScope.Knows
      (.function asMethod name [] :: p) := ⟨.cons holds_empty h.scopes, h.classKind⟩
  exact hopen.behind .function (behind_parameters params _)

/-- Methods are walked with the name of their class declared, and inside of one scope or two. -/
theorem Knows.enterClass (h : c.Knows p) (hdirect : p.Direct) (name : Token)
    (superclass : Option Reference) :
    (c.enterClass name superclass).Knows
      (.classBody superclass.isSome :: p.behind [name.lexeme]) := by
  have hnamed := h.behind hdirect (behind_declareAndDefine name c)
  have hbase : (({ c with classKind := .base } : Context).declareAndDefine name).scopes =
      (c.declareAndDefine name).scopes := by
    rw [scopes_declareAndDefine, scopes_declareAndDefine]
  cases superclass with
  | none =>
      constructor
      · unfold Context.enterClass
        rw [scopes_mark]
        exact .cons (holds_single _) (hbase ▸ hnamed.scopes)
      · exact (classKind_mark _ _ _).trans (behind_declareAndDefine name _).classKind
  | some ref =>
      unfold Context.enterClass
      dsimp only
      generalize hc₁ : (if ref.name.lexeme = name.lexeme then _ else _ : Context) = c₁
      have hscopes : c₁.scopes = (c.declareAndDefine name).scopes := by
        rw [← hc₁, ← hbase]
        split <;> rfl
      have hused := behind_useIdent ref { c₁ with classKind := .derived }
      constructor
      · rw [scopes_mark]
        change List.Forall₂ Holds (_ :: Context.scopes _) _
        rw [scopes_mark]
        refine .cons (holds_single _) (.cons (holds_single _) ?_)
        rw [show _ = _ from hused.scopes]
        change List.Forall₂ Holds c₁.scopes _
        rw [hscopes]
        exact hnamed.scopes
      · exact (classKind_mark _ _ _).trans ((classKind_mark _ _ _).trans hused.classKind)

end Context

theorem findIdx?_of_holds {scopes : List (Bindings Bool)} {names : List (List String)}
    (h : List.Forall₂ Holds scopes names) (name : String) :
    scopes.findIdx? (·.contains name) = names.findIdx? (name ∈ ·) := by
  refine findIdx?_of_forall₂ h fun scope names hscope => ?_
  rw [Bool.eq_iff_iff, hscope name, decide_eq_true_iff]

/-- Visits and uses that enter the same. -/
def SameEntries (vs : List Visit) (us : List Use) : Prop :=
  vs.filterMap Visit.entry? = us.filterMap Use.entry?

namespace SameEntries

variable {vs vs' : List Visit} {us us' : List Use} {c : Context} {p : Path} {ref : Reference}

theorem nil : SameEntries [] [] :=
  rfl

theorem append (h : SameEntries vs us) (h' : SameEntries vs' us') :
    SameEntries (vs ++ vs') (us ++ us') := by
  rw [SameEntries, List.filterMap_append, List.filterMap_append, h, h']

theorem of_distance? {v : Visit} {u : Use} (hid : v.ref.id = u.ref.id)
    (h : v.distance? = u.address?) : SameEntries [v] [u] := by
  simp only [SameEntries, List.filterMap_cons, List.filterMap_nil, Visit.entry?, Use.entry?, h, hid]

theorem single (h : c.Knows p) (ref : Reference) (os : List Origin) :
    SameEntries [⟨ref, c.scopes, os⟩] [⟨ref, false, p⟩] := by
  apply of_distance? rfl
  simp only [Visit.distance?, Use.address?, findIdx?_of_holds h.scopes, Bool.false_eq_true,
    false_and, if_false]

/-- Outside of classes `this` is not visited and has no address. -/
theorem this (h : c.Knows p) (ref : Reference) (os : List Origin) :
    SameEntries (if c.classKind = .none then [] else [⟨ref, c.scopes, os⟩]) [⟨ref, true, p⟩] := by
  have hnone : c.classKind = .none ↔ p.class? = none := by
    rw [h.classKind, Path.classKind_eq_none]
  by_cases hclass : p.class? = none
  · simp [SameEntries, Use.entry?, Use.address?, hnone, hclass]
  · simp only [hnone, hclass, if_false]
    apply of_distance? rfl
    simp only [Visit.distance?, Use.address?, findIdx?_of_holds h.scopes, hclass, and_false,
      if_false]

end SameEntries

end Scope

open Context

mutual

theorem Expr.entries_uses : ∀ (e : Expr) {c : Context} {p : Path} (os : List Origin), c.Knows p →
    SameEntries (e.visits c os) (e.uses p)
  | .literal _, _, _, _, _ => .nil
  | .group inner, _, _, os, h => inner.entries_uses os h
  | .unary _ right, _, _, os, h => right.entries_uses os h
  | .binary left _ right, c, _, os, h =>
    (left.entries_uses os h).append (right.entries_uses os (h.stay (left.walk_behind c)))
  | .logical left _ right, c, _, os, h =>
    (left.entries_uses os h).append (right.entries_uses os (h.stay (left.walk_behind c)))
  | .ident ref, _, _, os, h => .single h ref os
  | .assign ref value, c, _, os, h =>
    (value.entries_uses os h).append (.single (h.stay (value.walk_behind c)) ref os)
  | .call callee _ arguments, c, _, os, h =>
    (callee.entries_uses os h).append
      (entries_usesExprs arguments os (h.stay (callee.walk_behind c)))
  | .function decl, _, _, os, h => decl.entries_uses .function false os h
  | .get object _, _, _, os, h => object.entries_uses os h
  | .set object _ value, c, _, os, h =>
    (object.entries_uses os h).append (value.entries_uses os (h.stay (object.walk_behind c)))
  | .this ref, _, _, os, h => .this h ref os
  | .super ref _, _, _, os, h => .single h ref os

theorem entries_usesExprs : ∀ (es : List Expr) {c : Context} {p : Path} (os : List Origin),
    c.Knows p → SameEntries (visitsExprs es c os) (usesExprs es p)
  | [], _, _, _, _ => .nil
  | e :: rest, c, _, os, h =>
    (e.entries_uses os h).append (entries_usesExprs rest os (h.stay (e.walk_behind c)))

theorem FunctionDecl.entries_uses : ∀ (d : FunctionDecl) (kind : FunctionKind) (asMethod : Bool)
    {c : Context} {p : Path} (os : List Origin), c.Knows p →
      SameEntries (d.visits kind c os) (d.uses asMethod p)
  | .mk _ _ params body, kind, asMethod, _, _, _, h =>
    entries_usesStmts body _ Path.Direct.function.behind (h.function kind asMethod _ params)

/-- Statements stand where declarations reach them. -/
theorem Stmt.entries_uses : ∀ (s : Stmt) {c : Context} {p : Path} (os : List Origin), p.Direct →
    c.Knows p → SameEntries (s.visits c os) (s.uses p)
  | .expr value, _, _, os, _, h => value.entries_uses os h
  | .print value, _, _, os, _, h => value.entries_uses os h
  | .var _ none, _, _, _, _, _ => .nil
  | .var name (some value), _, _, os, _, h => value.entries_uses os (h.initializer name)
  | .block body, _, _, _, _, h => entries_usesStmts body _ .block h.block
  | .branch condition thenBranch none, c, _, os, hdirect, h =>
    (condition.entries_uses os h).append
      (thenBranch.entries_uses os hdirect (h.stay (condition.walk_behind c)))
  | .branch condition thenBranch (some elseBranch), c, p, os, hdirect, h => by
    have hthen := h.stay (condition.walk_behind c)
    have helse := hthen.behind hdirect (thenBranch.walk_behind _)
    have hentries := (thenBranch.entries_uses os hdirect hthen).append
      (elseBranch.entries_uses os hdirect.behind helse)
    have hwhole := (condition.entries_uses os h).append hentries
    rwa [← List.append_assoc] at hwhole
  | .loop condition body, c, _, os, hdirect, h =>
    (condition.entries_uses os h).append
      (body.entries_uses os hdirect (h.stay (condition.walk_behind c)))
  | .function (.mk (some name) line params body), c, _, os, hdirect, h =>
    (FunctionDecl.mk (some name) line params body).entries_uses .function false os
      (h.behind hdirect (behind_declareAndDefine name c))
  | .function (.mk none line params body), _, p, os, _, h =>
    (FunctionDecl.mk none line params body).entries_uses .function false os
      ((Path.behind_nil p).symm ▸ h)
  | .ret _ none, _, _, _, _, _ => .nil
  | .ret keyword (some value), c, _, os, _, h =>
    value.entries_uses os (h.stay (behind_useReturn keyword true c))
  | .classDecl name none methods, _, _, os, hdirect, h =>
    entries_usesMethods methods _ (h.enterClass hdirect name none)
  | .classDecl name (some ref) methods, c, _, os, hdirect, h => by
    have hnamed := h.behind hdirect (behind_declareAndDefine name c)
    exact (SameEntries.single hnamed ref os).append
      (entries_usesMethods methods _ (h.enterClass hdirect name (some ref)))

theorem entries_usesStmts : ∀ (ss : List Stmt) {c : Context} {p : Path} (os : List Origin),
    p.Direct → c.Knows p → SameEntries (visitsStmts ss c os) (usesStmts ss p)
  | [], _, _, _, _, _ => .nil
  | s :: rest, c, _, os, hdirect, h =>
    (s.entries_uses os hdirect h).append
      (entries_usesStmts rest os hdirect.behind (h.behind hdirect (s.walk_behind c)))

theorem entries_usesMethods : ∀ (ds : List FunctionDecl) {c : Context} {p : Path}
    (os : List Origin), c.Knows p → SameEntries (visitsMethods ds c os) (usesMethods ds p)
  | [], _, _, _, _ => .nil
  | d :: rest, c, _, os, h =>
    (d.entries_uses (methodKind d) true os h).append
      (entries_usesMethods rest os (h.stay (d.walk_behind (methodKind d) c)))

end

/-! ### The table -/

namespace Scope

open Grammar

theorem knows_initial : Context.initial.Knows [] :=
  ⟨.nil, rfl⟩

/-- What the uses of a tree enter. -/
theorem mem_entries_iff {us : List Use} {id : Identity} {d : Nat} :
    (id, d) ∈ (us.filterMap Use.entry?).reverse ↔ ∃ u ∈ us, u.ref.id = id ∧ u.BoundAt d := by
  rw [List.mem_reverse, List.mem_filterMap]
  apply exists_congr
  intro u
  apply and_congr_right
  intro _
  rw [← Use.address?_eq_some_iff, Use.entry?, Option.map_eq_some_iff]
  constructor
  · rintro ⟨_, haddress, heq⟩
    cases heq
    exact ⟨rfl, haddress⟩
  · rintro ⟨rfl, haddress⟩
    exact ⟨d, haddress, rfl⟩

/-- What the walk enters for a program, with errors or without, is what its uses enter, in their order,
and the uses are all of its references. In a program that was read from tokens, of which memory holds
no more than there are identities, no two uses get in each other's way: the distance that is found for
a use is that of the nearest scope in which its own name is declared, and none is found if there is no
such scope. -/
theorem distances_of_uses (program : List Stmt) :
    (resolveProgram program).distances = ((usesStmts program []).filterMap Use.entry?).reverse ∧
      (∀ id d, (id, d) ∈ (resolveProgram program).distances ↔
        ∃ u ∈ usesStmts program [], u.ref.id = id ∧ u.BoundAt d) ∧
      (usesStmts program []).map Use.ref = referencesStmts program ∧
      ∀ tokens i j, tokens.length ≤ UInt64.size → parseProgram tokens i = ⟨.ok program, j⟩ →
        ∀ u ∈ usesStmts program [], ∀ d,
          (resolveProgram program).distances.lookup u.ref.id = some d ↔ u.BoundAt d := by
  have htable : (resolveProgram program).distances =
      ((usesStmts program []).filterMap Use.entry?).reverse := by
    have hwalk := (walkStmts_spec program .initial []).distances
    rw [entries_usesStmts program [] .top knows_initial] at hwalk
    exact hwalk.trans (List.append_nil _)
  refine ⟨htable, ?_, references_usesStmts program [], ?_⟩
  · intro id d
    rw [htable, mem_entries_iff]
  · intro tokens i j hsize hread u hu d
    have hderived := parseProgram_iff_derives.mp hread
    have hlength : (beforeEnd tokens).length ≤ tokens.length :=
      (List.takeWhile_sublist _).length_le
    have hcount := hderived.identities_le
    have hdistinct : ((usesStmts program []).map fun u => u.ref.id).Nodup := by
      have hcounted := hderived.counted.distinct (by dsimp only at hcount; omega)
      rw [Phrase.references, ← references_usesStmts program [], List.map_map] at hcounted
      exact hcounted
    have hfound : (resolveProgram program).distances.lookup u.ref.id = u.address? := by
      rw [htable]
      exact lookup_filterMap (f := fun u : Use => u.ref.id) hdistinct u hu
    rw [hfound, Use.address?_eq_some_iff]

/-- Two occurrences of one name, of which the first is in a block of its own. The name is declared
twice, which is an error and changes nothing here. -/
theorem distances_of_uses_twice :
    let a : Token := ⟨.identifier, "a", 1⟩
    let program : List Stmt :=
      [.block [.var a none, .var a none, .block [.expr (.ident ⟨0, a⟩)], .expr (.ident ⟨1, a⟩)]]
    let tokens : List Token :=
      [⟨.leftBrace, "\x7b", 1⟩, ⟨.kwVar, "var", 1⟩, a, ⟨.semicolon, ";", 1⟩, ⟨.kwVar, "var", 1⟩, a,
        ⟨.semicolon, ";", 1⟩, ⟨.leftBrace, "\x7b", 1⟩, a, ⟨.semicolon, ";", 1⟩,
        ⟨.rightBrace, "\x7d", 1⟩, a, ⟨.semicolon, ";", 1⟩, ⟨.rightBrace, "\x7d", 1⟩, .eof 1]
    parseProgram tokens 0 = ⟨.ok program, 2⟩ ∧
      (resolveProgram program).errors ≠ [] ∧
      (resolveProgram program).distances.lookup 0 = some 1 ∧
      (resolveProgram program).distances.lookup 1 = some 0 := by
  intro a program tokens
  have hread : parseProgram tokens 0 = ⟨.ok program, 2⟩ := by rfl
  obtain ⟨-, -, -, hfound⟩ := distances_of_uses program
  have hinner : (⟨⟨0, a⟩, false, [.block [], .block ["a", "a"]]⟩ : Use).BoundAt 1 :=
    Use.address?_eq_some_iff.mp (by decide)
  have houter : (⟨⟨1, a⟩, false, [.block ["a", "a"]]⟩ : Use).BoundAt 0 :=
    Use.address?_eq_some_iff.mp (by decide)
  refine ⟨hread, by decide, ?_, ?_⟩
  · exact (hfound _ 0 2 (by decide) hread _ (.head _) 1).mpr hinner
  · exact (hfound _ 0 2 (by decide) hread _ (.tail _ (.head _)) 0).mpr houter

end Scope

end LoxLang
