import LoxLang.Proofs.Scope.Rules

/-!
The static walk reports exactly what the rules forbid: the errors of a program are those of its places,
in order. What the walk knows at a place is compared with the constructs around the place, and an
expression or a statement adds the errors of its places to those found before.
-/

namespace LoxLang

namespace Scope

namespace Path

def functionKind (p : Path) : FunctionKind :=
  match p.function? with
  | none => .none
  | some (false, _) => .function
  | some (true, name) => if name == FunctionDecl.initializerName then .initializer else .method

def classKind (p : Path) : ClassKind :=
  match p.class? with
  | none => .none
  | some false => .base
  | some true => .derived

/-- A place that declarations reach: at the top level, or directly in a scope. -/
inductive Direct : Path → Prop
  | top : Direct []
  | block {names p} : Direct (.block names :: p)
  | function {asMethod name names p} : Direct (.function asMethod name names :: p)

variable {p : Path}

theorem functionKind_eq_none : p.functionKind = .none ↔ p.function? = none := by
  unfold functionKind
  split
  case h_1 h => simp [h]
  case h_2 h => simp [h]
  case h_3 h =>
    rw [h]
    split <;> simp

theorem functionKind_eq_initializer :
    p.functionKind = .initializer ↔ p.function? = some (true, FunctionDecl.initializerName) := by
  unfold functionKind
  split
  case h_1 h => simp [h]
  case h_2 h => simp [h]
  case h_3 name h =>
    rw [h]
    by_cases hname : name = FunctionDecl.initializerName <;> simp [hname]

theorem classKind_eq_none : p.classKind = .none ↔ p.class? = none := by
  unfold classKind
  split <;> simp [*]

theorem Direct.behind {names : List String} (h : p.Direct) : (p.behind names).Direct := by
  cases h <;> constructor

theorem Direct.initializing? (h : p.Direct) : p.initializing? = none := by
  cases h <;> rfl

theorem Direct.declared_behind {names : List String} (h : p.Direct) :
    (p.behind names).declared = if p = [] then [] else p.declared ++ names := by
  cases h <;> rfl

theorem function?_behind (names : List String) (p : Path) :
    (p.behind names).function? = p.function? := by
  unfold behind
  split <;> rfl

theorem class?_behind (names : List String) (p : Path) : (p.behind names).class? = p.class? := by
  unfold behind
  split <;> rfl

theorem classKind_behind (names : List String) (p : Path) :
    (p.behind names).classKind = p.classKind := by
  rw [classKind, class?_behind, classKind]

theorem behind_eq_nil (names : List String) : p.behind names = [] ↔ p = [] := by
  unfold behind
  split <;> simp

theorem behind_nil (p : Path) : p.behind [] = p := by
  unfold behind
  split <;> simp

end Path

namespace Context

variable {c c' c'' : Context} {p : Path} {names : List String} {ps ps' : List Place}

/-- A context knows the kinds of the function and the class around a place. -/
structure Kinds (c : Context) (p : Path) : Prop where
  functionKind : c.functionKind = p.functionKind
  classKind : c.classKind = p.classKind

/-- A context knows of a place what the rules for expressions ask. -/
structure Reads (c : Context) (p : Path) : Prop extends Kinds c p where
  initializing (name : String) : c.innermost? name = some false ↔ p.initializing? = some name

/-- A context knows the names declared before a place that declarations reach. -/
structure Scoped (c : Context) (p : Path) : Prop where
  direct : p.Direct
  top : c.scopes = [] ↔ p = []
  declared (name : String) : c.innermost? name = if name ∈ p.declared then some true else none

/-- A context knows of a place what the rules for statements ask. -/
structure Stands (c : Context) (p : Path) : Prop extends Kinds c p, Scoped c p

theorem Kinds.behind (h : c.Kinds p) (hb : c.Behind names c') : c'.Kinds (p.behind names) where
  functionKind := by
    rw [hb.functionKind, h.functionKind, Path.functionKind, Path.functionKind, Path.function?_behind]
  classKind := by
    rw [hb.classKind, h.classKind, Path.classKind, Path.classKind, Path.class?_behind]

theorem innermost?_congr (h : c'.scopes = c.scopes) (name : String) :
    c'.innermost? name = c.innermost? name := by
  rw [innermost?, innermost?, h]

theorem innermost?_mark (name other : String) (ready : Bool) (c : Context) :
    (c.mark name ready).innermost? other =
      if c.scopes = [] then none
      else if name = other then some ready else c.innermost? other := by
  unfold mark innermost?
  cases hscopes : c.scopes with
  | nil => simp [hscopes]
  | cons scope outer => exact Bindings.find?_insert ..

theorem innermost?_markAll (other : String) (h : c'.scopes = markAll names c.scopes) :
    c'.innermost? other =
      if c.scopes = [] then none
      else if other ∈ names then some true else c.innermost? other := by
  induction names generalizing c with
  | nil =>
      rw [innermost?_congr h]
      cases hscopes : c.scopes <;> simp [innermost?, hscopes]
  | cons name names ih =>
      have hmark : (c.mark name true).scopes = markIn name true c.scopes := scopes_mark ..
      rw [ih (c := c.mark name true) (by rw [hmark]; exact h), innermost?_mark, hmark]
      simp only [markIn_eq_nil, List.mem_cons]
      by_cases hscopes : c.scopes = []
      · simp [hscopes]
      · by_cases hname : name = other
        · simp [hscopes, hname]
        · simp [hscopes, hname, Ne.symm hname]

theorem Reads.behind (h : c.Reads p) (hb : c.Behind [] c') : c'.Reads p where
  toKinds := by simpa only [Path.behind_nil] using h.toKinds.behind hb
  initializing name := by rw [innermost?_congr hb.scopes, h.initializing]

theorem Scoped.initializing (h : c.Scoped p) (name : String) :
    c.innermost? name = some false ↔ p.initializing? = some name := by
  rw [h.declared, h.direct.initializing?]
  split <;> simp

theorem Stands.reads (h : c.Stands p) : c.Reads p :=
  ⟨h.toKinds, h.toScoped.initializing⟩

theorem Scoped.behind (h : c.Scoped p) (hb : c.Behind names c') :
    c'.Scoped (p.behind names) where
  direct := h.direct.behind
  top := by rw [hb.scopes, markAll_eq_nil, h.top, Path.behind_eq_nil]
  declared name := by
    rw [innermost?_markAll name hb.scopes, h.direct.declared_behind, h.declared]
    by_cases hp : p = []
    · simp [h.top, hp]
    · by_cases hname : name ∈ names <;> simp [h.top, hp, hname]

theorem Stands.behind (h : c.Stands p) (hb : c.Behind names c') : c'.Stands (p.behind names) :=
  ⟨h.toKinds.behind hb, h.toScoped.behind hb⟩

/-- A new scope in which nothing is declared. -/
theorem Kinds.openScope (h : c.openScope.Kinds p) (hdirect : p.Direct) (hp : p ≠ [])
    (hdeclared : p.declared = []) : c.openScope.Stands p where
  toKinds := h
  direct := hdirect
  top := by simp [Context.openScope, hp]
  declared name := by simp [Context.openScope, innermost?, hdeclared, Bindings.find?]

theorem Stands.block (h : c.Stands p) : c.openScope.Stands (.block [] :: p) :=
  Kinds.openScope ⟨h.functionKind, h.classKind⟩ .block (List.cons_ne_nil _ _) rfl

/-- The initializer of a variable is read with the variable declared but not ready. -/
theorem Stands.initializer (h : c.Stands p) (name : Token) :
    (c.declare name).Reads (.initializer name.lexeme :: p) := by
  have hb : c.Behind [name.lexeme] ((c.declare name).define name) := .declared name (.refl _)
  have hkinds := h.toKinds.behind hb
  constructor
  · constructor
    · have := hkinds.functionKind
      rw [define, functionKind_mark] at this
      rw [this, Path.functionKind, Path.function?_behind]
      rfl
    · have := hkinds.classKind
      rw [define, classKind_mark] at this
      rw [this, Path.classKind, Path.class?_behind]
      rfl
  · intro other
    have hscopes : (c.declare name).scopes = (c.mark name.lexeme false).scopes := by
      rw [scopes_declare, scopes_mark]
    rw [innermost?_congr hscopes, innermost?_mark, h.declared]
    by_cases hp : p = []
    · subst hp
      simp [h.top, Path.initializing?]
    · obtain ⟨around, rest, rfl⟩ := List.exists_cons_of_ne_nil hp
      simp only [h.top, hp, if_false, Path.initializing?, Option.some.injEq]
      by_cases hname : name.lexeme = other
      · simp [hname]
      · rw [if_neg hname]
        split <;> simp [hname]

/-- Some places are looked at, and their errors are reported. -/
def Reports (c : Context) (ps : List Place) (c' : Context) : Prop :=
  c'.errors = c.errors ++ ps.filterMap Place.error?

theorem Reports.of_errors_eq (h : c'.errors = c.errors) : c.Reports [] c' :=
  h.trans (List.append_nil _).symm

theorem Reports.refl (c : Context) : c.Reports [] c :=
  .of_errors_eq rfl

theorem Reports.trans (h : c.Reports ps c') (h' : c'.Reports ps' c'') : c.Reports (ps ++ ps') c'' := by
  rw [Reports, h', h, List.filterMap_append, List.append_assoc]

theorem Reports.quiet (h : c.Reports ps c') (h' : c''.errors = c'.errors) : c.Reports ps c'' :=
  h'.trans h

theorem reports_singleton {place : Place} :
    c.Reports [place] c' ↔ c'.errors = c.errors ++ place.error?.toList := by
  unfold Reports
  cases h : place.error? <;> simp [h]

theorem errors_bind (ref : Reference) (c : Context) : (c.bind ref).errors = c.errors := by
  unfold bind
  split <;> rfl

theorem errors_mark (name : String) (ready : Bool) (c : Context) :
    (c.mark name ready).errors = c.errors := by
  unfold mark
  split <;> rfl

theorem reports_useIdent {ref : Reference}
    (h : c.innermost? ref.name.lexeme = some false ↔ p.initializing? = some ref.name.lexeme) :
    c.Reports [⟨.read ref, p⟩] (c.useIdent ref) := by
  rw [reports_singleton, Context.useIdent, errors_bind]
  by_cases hread : p.initializing? = some ref.name.lexeme
  · simp [h.mpr hread, Place.error?, hread, report]
  · simp [h.not.mpr hread, Place.error?, hread]

theorem Kinds.useThis (h : c.Kinds p) (ref : Reference) :
    c.Reports [⟨.this ref, p⟩] (c.useThis ref) := by
  rw [reports_singleton, Context.useThis, h.classKind]
  by_cases hthis : p.class? = none
  · simp [Path.classKind_eq_none.mpr hthis, Place.error?, hthis, report]
  · simp [Path.classKind_eq_none.not.mpr hthis, Place.error?, hthis, errors_bind]

theorem Kinds.useSuper (h : c.Kinds p) (ref : Reference) :
    c.Reports [⟨.super ref, p⟩] (c.useSuper ref) := by
  rw [reports_singleton, Context.useSuper, errors_bind, h.classKind, Path.classKind, Place.error?]
  cases p.class? with
  | none => rfl
  | some derived => cases derived <;> simp [report]

theorem Kinds.useReturn (h : c.Kinds p) (keyword : Token) (hasValue : Bool) :
    c.Reports [⟨.ret keyword hasValue, p⟩] (c.useReturn keyword hasValue) := by
  rw [reports_singleton, Context.useReturn, Place.error?]
  by_cases hnone : p.function? = none
  · have hkind : c.functionKind = .none := h.functionKind.trans (Path.functionKind_eq_none.mpr hnone)
    simp [hkind, hnone, report]
  · have hkind : c.functionKind ≠ .none := fun hc =>
      hnone (Path.functionKind_eq_none.mp (h.functionKind.symm.trans hc))
    have hinit : c.functionKind = .initializer ↔
        p.function? = some (true, FunctionDecl.initializerName) := by
      rw [h.functionKind, Path.functionKind_eq_initializer]
    rw [if_neg hkind, if_neg hnone]
    simp only [hinit]
    split <;> simp [report]

theorem Scoped.declare (h : c.Scoped p) (name : Token) :
    c.Reports [⟨.declaration name, p⟩] (c.declare name) := by
  rw [reports_singleton, Context.declare, Place.error?, h.declared]
  by_cases hdeclared : name.lexeme ∈ p.declared
  · simp [hdeclared, report, errors_mark]
  · simp [hdeclared, errors_mark]

theorem Scoped.declareAndDefine (h : c.Scoped p) (name : Token) :
    c.Reports [⟨.declaration name, p⟩] (c.declareAndDefine name) :=
  (h.declare name).quiet (errors_mark _ _ _)

theorem Scoped.parameters (params : List Token) (h : c.Scoped p) :
    c.Reports (placesParams params p) (c.parameters params) := by
  induction params generalizing c p with
  | nil => exact .refl c
  | cons name params ih =>
      have hbehind := h.behind (behind_declareAndDefine name c)
      exact (h.declareAndDefine name).trans (ih hbehind)

theorem reports_inheritance (name : Token) (superclass : Reference) (p : Path) (c : Context) :
    c.Reports [⟨.inheritance name superclass, p⟩]
      (if superclass.name.lexeme = name.lexeme then c.report superclass.name .inheritsItself
        else c) := by
  rw [reports_singleton, Place.error?]
  split <;> simp [report]

/-- The kind of class changes before the name of the class is declared, which no rule for names asks
about. -/
theorem Stands.enterBase (h : c.Stands p) (name : Token) :
    c.Reports [⟨.declaration name, p⟩] (c.enterClass name none) ∧
      (c.enterClass name none).Kinds (.classBody false :: p) := by
  have hscoped : ({ c with classKind := .base } : Context).Scoped p := ⟨h.direct, h.top, h.declared⟩
  refine ⟨(hscoped.declareAndDefine name).quiet (errors_mark _ _ _), ?_, ?_⟩
  · refine (functionKind_mark _ _ _).trans ?_
    exact (behind_declareAndDefine name _).functionKind.trans h.functionKind
  · refine (classKind_mark _ _ _).trans ?_
    exact (behind_declareAndDefine name _).classKind

theorem Stands.enterDerived (h : c.Stands p) (name : Token) (superclass : Reference) :
    c.Reports [⟨.declaration name, p⟩, ⟨.inheritance name superclass, p⟩, ⟨.read superclass, p⟩]
        (c.enterClass name (some superclass)) ∧
      (c.enterClass name (some superclass)).Kinds (.classBody true :: p) := by
  have hscoped : ({ c with classKind := .base } : Context).Scoped p := ⟨h.direct, h.top, h.declared⟩
  have hnamed := behind_declareAndDefine name { c with classKind := .base }
  have hreports := (hscoped.declareAndDefine name).trans (reports_inheritance name superclass p _)
  unfold enterClass
  dsimp only
  generalize hc₁ : (if superclass.name.lexeme = name.lexeme then _ else _ : Context) = c₁ at hreports ⊢
  have hb : Behind [name.lexeme] { c with classKind := .base } c₁ := by
    rw [← hc₁]
    split
    · exact hnamed.trans (behind_report _ _ _)
    · exact hnamed
  have hread : ({ c₁ with classKind := .derived } : Context).Reports [⟨.read superclass, p⟩]
      (({ c₁ with classKind := .derived } : Context).useIdent superclass) := by
    refine reports_useIdent ?_
    refine ((hscoped.behind hb).initializing _).trans ?_
    rw [h.direct.behind.initializing?, h.direct.initializing?]
  have hused := behind_useIdent superclass { c₁ with classKind := .derived }
  refine ⟨?_, ?_, ?_⟩
  · refine (hreports.trans hread).quiet ?_
    exact (errors_mark _ _ _).trans (errors_mark _ _ _)
  · refine (functionKind_mark _ _ _).trans ((functionKind_mark _ _ _).trans ?_)
    exact hused.functionKind.trans (hb.functionKind.trans h.functionKind)
  · refine (classKind_mark _ _ _).trans ((classKind_mark _ _ _).trans ?_)
    exact hused.classKind

end Context

end Scope

open Scope Context

mutual

theorem Expr.walk_reports : ∀ (e : Expr) {c : Context} {p : Path}, c.Reads p →
    c.Reports (e.places p) (e.walk c)
  | .literal _, c, _, _ => .refl c
  | .group inner, _, _, h => inner.walk_reports h
  | .unary _ right, _, _, h => right.walk_reports h
  | .binary left _ right, c, _, h =>
    (left.walk_reports h).trans (right.walk_reports (h.behind (left.walk_behind c)))
  | .logical left _ right, c, _, h =>
    (left.walk_reports h).trans (right.walk_reports (h.behind (left.walk_behind c)))
  | .ident _, _, _, h => reports_useIdent (h.initializing _)
  | .assign ref value, _, _, h => (value.walk_reports h).quiet (errors_bind ref _)
  | .call callee _ arguments, c, _, h =>
    (callee.walk_reports h).trans (walkExprs_reports arguments (h.behind (callee.walk_behind c)))
  | .function decl, _, _, h => decl.walk_reports false h.toKinds
  | .get object _, _, _, h => object.walk_reports h
  | .set object _ value, c, _, h =>
    (object.walk_reports h).trans (value.walk_reports (h.behind (object.walk_behind c)))
  | .this ref, _, _, h => h.useThis ref
  | .super ref _, _, _, h => h.useSuper ref

theorem walkExprs_reports : ∀ (es : List Expr) {c : Context} {p : Path}, c.Reads p →
    c.Reports (placesExprs es p) (walkExprs es c)
  | [], c, _, _ => .refl c
  | e :: rest, c, _, h =>
    (e.walk_reports h).trans (walkExprs_reports rest (h.behind (e.walk_behind c)))

/-- A function asks of the places around it their kinds of class only, since it has its own scope. -/
theorem FunctionDecl.walk_reports : ∀ (d : FunctionDecl) (asMethod : Bool) {c : Context} {p : Path},
    c.Kinds p →
      c.Reports (d.places asMethod p) (d.walk (if asMethod then methodKind d else .function) c)
  | .mk name line params body, asMethod, c, p, h => by
    let d := FunctionDecl.mk name line params body
    let inside := ({ c with functionKind := if asMethod then methodKind d else .function }
      : Context).openScope
    have hstands : inside.Stands (.function asMethod d.name [] :: p) := by
      refine Kinds.openScope ⟨?_, h.classKind⟩ .function (List.cons_ne_nil _ _) rfl
      cases asMethod <;> rfl
    have hbody := hstands.behind (behind_parameters params inside)
    exact ((hstands.parameters params).trans (walkStmts_reports body hbody)).quiet rfl

theorem Stmt.walk_reports : ∀ (s : Stmt) {c : Context} {p : Path}, c.Stands p →
    c.Reports (s.places p) (s.walk c)
  | .expr value, _, _, h => value.walk_reports h.reads
  | .print value, _, _, h => value.walk_reports h.reads
  | .var name none, _, _, h => h.declareAndDefine name
  | .var name (some value), _, _, h =>
    ((h.declare name).trans (value.walk_reports (h.initializer name))).quiet (errors_mark _ _ _)
  | .block body, _, _, h => (walkStmts_reports body h.block).quiet rfl
  | .branch condition thenBranch none, c, p, h => by
    have hthen : (condition.walk c).Stands p := by
      simpa only [Path.behind_nil] using h.behind (condition.walk_behind c)
    exact (condition.walk_reports h.reads).trans (thenBranch.walk_reports hthen)
  | .branch condition thenBranch (some elseBranch), c, p, h => by
    have hthen : (condition.walk c).Stands p := by
      simpa only [Path.behind_nil] using h.behind (condition.walk_behind c)
    have helse := hthen.behind (thenBranch.walk_behind _)
    exact (condition.walk_reports h.reads).trans
      ((thenBranch.walk_reports hthen).trans (elseBranch.walk_reports helse))
  | .loop condition body, c, p, h => by
    have hbody : (condition.walk c).Stands p := by
      simpa only [Path.behind_nil] using h.behind (condition.walk_behind c)
    exact (condition.walk_reports h.reads).trans (body.walk_reports hbody)
  | .function (.mk (some name) line params body), c, p, h => by
    have hkinds : (c.declareAndDefine name).Kinds p := by
      have := h.toKinds.behind (behind_declareAndDefine name c)
      constructor
      · rw [this.functionKind, Path.functionKind, Path.function?_behind]
        rfl
      · rw [this.classKind, Path.classKind, Path.class?_behind]
        rfl
    exact (h.declareAndDefine name).trans
      ((FunctionDecl.mk (some name) line params body).walk_reports false hkinds)
  | .function (.mk none line params body), _, _, h =>
    (FunctionDecl.mk none line params body).walk_reports false h.toKinds
  | .ret keyword none, _, _, h => h.useReturn keyword false
  | .ret keyword (some value), c, _, h =>
    (h.useReturn keyword true).trans
      (value.walk_reports (h.reads.behind (behind_useReturn keyword true c)))
  | .classDecl name none methods, _, _, h =>
    have hentry := h.enterBase name
    (hentry.1.trans (walkMethods_reports methods hentry.2)).quiet rfl
  | .classDecl name (some superclass) methods, _, _, h =>
    have hentry := h.enterDerived name superclass
    (hentry.1.trans (walkMethods_reports methods hentry.2)).quiet rfl

theorem walkStmts_reports : ∀ (ss : List Stmt) {c : Context} {p : Path}, c.Stands p →
    c.Reports (placesStmts ss p) (walkStmts ss c)
  | [], c, _, _ => .refl c
  | s :: rest, c, _, h =>
    (s.walk_reports h).trans (walkStmts_reports rest (h.behind (s.walk_behind c)))

theorem walkMethods_reports : ∀ (ds : List FunctionDecl) {c : Context} {p : Path}, c.Kinds p →
    c.Reports (placesMethods ds p) (walkMethods ds c)
  | [], c, _, _ => .refl c
  | d :: rest, c, p, h => by
    have hrest : (d.walk (methodKind d) c).Kinds p := by
      simpa only [Path.behind_nil] using h.behind (d.walk_behind (methodKind d) c)
    exact (d.walk_reports true h).trans (walkMethods_reports rest hrest)

end

namespace Scope

theorem stands_initial : Context.initial.Stands [] where
  functionKind := rfl
  classKind := rfl
  direct := .top
  top := ⟨fun _ => rfl, fun _ => rfl⟩
  declared _ := rfl

/-- The errors of a program are those of its places, in the order of its text and with no other among
them; it has none just if no place violates a rule. -/
theorem errors_resolveProgram (program : List Stmt) :
    (resolveProgram program).errors = (placesStmts program []).filterMap Place.error? ∧
      (∀ place error, place.error? = some error ↔ Violates place error) ∧
      ((resolveProgram program).errors = [] ↔
        ∀ place ∈ placesStmts program [], ∀ error, ¬Violates place error) := by
  have herrors : (resolveProgram program).errors = (placesStmts program []).filterMap Place.error? :=
    walkStmts_reports program stands_initial
  refine ⟨herrors, Place.error?_eq_some_iff, ?_⟩
  rw [herrors, List.filterMap_eq_nil_iff]
  refine forall₂_congr fun place _ => ?_
  rw [Option.eq_none_iff_forall_ne_some]
  exact forall_congr' fun error => (Place.error?_eq_some_iff place error).not

end Scope

end LoxLang
