import LoxLang.Proofs.Scope.Addresses
import LoxLang.Proofs.Scope.Law
import LoxLang.Proofs.Scope.Ties

/-!
Where the walk comes to the statements of a tree. A station is a statement with the context in which the
walk comes to it. By the law of some stations and uses, the statements that are run are those of the
stations, and they use names where the walk has come to them.
-/

namespace LoxLang

open Scope

structure Scope.Station where
  stmt : Stmt
  context : Context

mutual

/-- The statements of a tree, each with the context in which the walk comes to it. -/
def Expr.stations : Expr → Context → List Station
  | .literal _, _ | .ident _, _ | .this _, _ | .super _ _, _ => []
  | .group inner, c => inner.stations c
  | .unary _ right, c => right.stations c
  | .binary left _ right, c => left.stations c ++ right.stations (left.walk c)
  | .logical left _ right, c => left.stations c ++ right.stations (left.walk c)
  | .assign _ value, c => value.stations c
  | .call callee _ arguments, c => callee.stations c ++ stationsExprs arguments (callee.walk c)
  | .function decl, c => decl.stations .function c
  | .get object _, c => object.stations c
  | .set object _ value, c => object.stations c ++ value.stations (object.walk c)

def stationsExprs : List Expr → Context → List Station
  | [], _ => []
  | e :: rest, c => e.stations c ++ stationsExprs rest (e.walk c)

def FunctionDecl.stations : FunctionDecl → FunctionKind → Context → List Station
  | .mk _ _ params body, kind, c =>
    stationsStmts body ({ c with functionKind := kind }.openScope.parameters params)

def Stmt.stations (s : Stmt) (c : Context) : List Station :=
  ⟨s, c⟩ :: match s with
    | .expr value => value.stations c
    | .print value => value.stations c
    | .var _ none => []
    | .var name (some value) => value.stations (c.declare name)
    | .block body => stationsStmts body c.openScope
    | .branch condition thenBranch none =>
      condition.stations c ++ thenBranch.stations (condition.walk c)
    | .branch condition thenBranch (some elseBranch) =>
      condition.stations c ++ (thenBranch.stations (condition.walk c) ++
        elseBranch.stations (thenBranch.walk (condition.walk c)))
    | .loop condition body => condition.stations c ++ body.stations (condition.walk c)
    | .function decl =>
      decl.stations .function
        (match decl.name? with
        | some name => c.declareAndDefine name
        | none => c)
    | .ret _ none => []
    | .ret keyword (some value) => value.stations (c.useReturn keyword true)
    | .classDecl name superclass methods => stationsMethods methods (c.enterClass name superclass)

def stationsStmts : List Stmt → Context → List Station
  | [], _ => []
  | s :: rest, c => s.stations c ++ stationsStmts rest (s.walk c)

def stationsMethods : List FunctionDecl → Context → List Station
  | [], _ => []
  | d :: rest, c => d.stations (methodKind d) c ++ stationsMethods rest (d.walk (methodKind d) c)

end

namespace Scope

/-! ### Names of variables -/

/-- The innermost scope around a place has names of variables only. -/
def Path.Unreserved (p : Path) : Prop :=
  ∀ names ∈ p.scopes.head?, ∀ name ∈ names, ¬Reserved name

variable {p : Path} {names : List String}

theorem Path.Unreserved.top : Path.Unreserved [] :=
  nofun

theorem Path.Unreserved.block : Path.Unreserved (.block [] :: p) := by
  rintro _ ⟨⟩
  exact nofun

theorem Path.Unreserved.function {asMethod : Bool} {name : String} :
    Path.Unreserved (.function asMethod name [] :: p) := by
  rintro _ ⟨⟩
  exact nofun

theorem Path.Unreserved.behind (h : p.Unreserved) (hdirect : p.Direct)
    (hnames : ∀ name ∈ names, ¬Reserved name) : (p.behind names).Unreserved := by
  intro declared hdeclared
  rw [scopes_behind hdirect, List.head?_modifyHead, Option.mem_def, Option.map_eq_some_iff] at hdeclared
  obtain ⟨before, hbefore, rfl⟩ := hdeclared
  exact List.forall_mem_append.mpr ⟨h before hbefore, hnames⟩

/-- A place at which the walk has come to a statement, where the statement uses what it uses. -/
structure Station.Stands (us : List Use) (station : Station) (p : Path) : Prop where
  knows : station.context.Knows p
  direct : p.Direct
  unreserved : p.Unreserved
  uses : (station.stmt.uses p).Sublist us

end Scope

/-! ### The law -/

/-- What is run stands where the walk has come to it, and is spelled as parsed trees are. -/
def Law.within (us : List Use) (ws : List Station) : Law where
  node
    | .stmt s, _ => s.Spelled ∧ ∃ c p, ⟨s, c⟩ ∈ ws ∧ Station.Stands us ⟨s, c⟩ p
    | .expr _, _ => True
  function d _ := d.Spelled ∧ d.references ⊆ us.map Use.ref

variable {us : List Use} {ws : List Station}

open Context

theorem Law.node_within {s : Stmt} {c : Context} {p : Path} (k : ClassKind) (hs : s.Spelled)
    (h : Station.Stands us ⟨s, c⟩ p) (hws : s.stations c ⊆ ws) :
    (Law.within us ws).node (.stmt s) k := by
  have hstation : ⟨s, c⟩ ∈ s.stations c := by
    unfold Stmt.stations
    exact List.mem_cons_self ..
  exact ⟨hs, c, p, hws hstation, h⟩

mutual

/-- A tree obeys the law of its stations and its uses. -/
theorem Expr.obeys_within : ∀ (e : Expr) {c : Context} {p : Path} (k : ClassKind), e.Spelled →
    c.Knows p → (e.uses p).Sublist us → e.stations c ⊆ ws → e.Obeys (.within us ws) k
  | .literal _, _, _, _, _, _, _, _ | .ident _, _, _, _, _, _, _, _ | .this _, _, _, _, _, _, _, _
  | .super _ _, _, _, _, _, _, _, _ => ⟨trivial, trivial⟩
  | .group inner, _, _, k, hs, h, hus, hws => ⟨trivial, inner.obeys_within k hs h hus hws⟩
  | .unary _ right, _, _, k, hs, h, hus, hws => ⟨trivial, right.obeys_within k hs h hus hws⟩
  | .binary left _ right, c, _, k, hs, h, hus, hws | .logical left _ right, c, _, k, hs, h, hus, hws => by
    obtain ⟨hleft, hright⟩ := List.append_subset.mp hws
    constructor
    · trivial
    constructor
    · exact left.obeys_within k hs.1 h ((List.sublist_append_left _ _).trans hus) hleft
    · exact right.obeys_within k hs.2 (h.stay (left.walk_behind c))
        ((List.sublist_append_right _ _).trans hus) hright
  | .assign _ value, _, _, k, hs, h, hus, hws =>
    ⟨trivial, value.obeys_within k hs.2 h ((List.sublist_append_left _ _).trans hus) hws⟩
  | .call callee _ arguments, c, _, k, hs, h, hus, hws => by
    obtain ⟨hcallee, harguments⟩ := List.append_subset.mp hws
    constructor
    · trivial
    constructor
    · exact callee.obeys_within k hs.1 h ((List.sublist_append_left _ _).trans hus) hcallee
    · exact obeysExprs_within arguments k hs.2 (h.stay (callee.walk_behind c))
        ((List.sublist_append_right _ _).trans hus) harguments
  | .function decl, _, _, k, hs, h, hus, hws =>
    ⟨trivial, decl.obeys_within .function false false k hs h hus hws⟩
  | .get object _, _, _, k, hs, h, hus, hws => ⟨trivial, object.obeys_within k hs h hus hws⟩
  | .set object _ value, c, _, k, hs, h, hus, hws => by
    obtain ⟨hobject, hvalue⟩ := List.append_subset.mp hws
    constructor
    · trivial
    constructor
    · exact object.obeys_within k hs.1 h ((List.sublist_append_left _ _).trans hus) hobject
    · exact value.obeys_within k hs.2 (h.stay (object.walk_behind c))
        ((List.sublist_append_right _ _).trans hus) hvalue

theorem obeysExprs_within : ∀ (es : List Expr) {c : Context} {p : Path} (k : ClassKind),
    SpelledExprs es → c.Knows p → (usesExprs es p).Sublist us → stationsExprs es c ⊆ ws →
      ObeysExprs (.within us ws) k es
  | [], _, _, _, _, _, _, _ => trivial
  | e :: rest, c, _, k, hs, h, hus, hws => by
    obtain ⟨he, hrest⟩ := List.append_subset.mp hws
    constructor
    · exact e.obeys_within k hs.1 h ((List.sublist_append_left _ _).trans hus) he
    · exact obeysExprs_within rest k hs.2 (h.stay (e.walk_behind c))
        ((List.sublist_append_right _ _).trans hus) hrest

theorem FunctionDecl.obeys_within : ∀ (d : FunctionDecl) (kind : FunctionKind)
    (asMethod isInitializer : Bool) {c : Context} {p : Path} (k : ClassKind), d.Spelled →
      c.Knows p → (d.uses asMethod p).Sublist us → d.stations kind c ⊆ ws →
        d.Obeys (.within us ws) k isInitializer
  | .mk name line params body, kind, asMethod, isInitializer, c, p, k, hs, h, hus, hws => by
    have hparams : ∀ name ∈ params.map Token.lexeme, ¬Reserved name :=
      List.forall_mem_map.mpr hs.1
    constructor
    · refine ⟨hs, ?_⟩
      rw [← FunctionDecl.references_uses _ asMethod p]
      exact List.map_subset _ hus.subset
    · exact obeysStmts_within body k hs.2 (h.function kind asMethod _ params)
        Path.Direct.function.behind (Path.Unreserved.function.behind .function hparams) hus hws

theorem Stmt.obeys_within : ∀ (s : Stmt) {c : Context} {p : Path} (k : ClassKind), s.Spelled →
    Station.Stands us ⟨s, c⟩ p → s.stations c ⊆ ws → s.Obeys (.within us ws) k
  | .expr value, _, _, k, hs, h, hws | .print value, _, _, k, hs, h, hws =>
    ⟨Law.node_within k hs h hws,
      value.obeys_within k hs h.knows h.uses (List.cons_subset.mp hws).2⟩
  | .var _ none, _, _, k, hs, h, hws => ⟨Law.node_within k hs h hws, trivial⟩
  | .var name (some value), _, _, k, hs, h, hws =>
    ⟨Law.node_within k hs h hws,
      value.obeys_within k hs.2 (h.knows.initializer name) h.uses (List.cons_subset.mp hws).2⟩
  | .block body, _, _, k, hs, h, hws =>
    ⟨Law.node_within k hs h hws,
      obeysStmts_within body k hs h.knows.block .block .block h.uses (List.cons_subset.mp hws).2⟩
  | .branch condition thenBranch none, c, _, k, hs, h, hws => by
    obtain ⟨hcondition, hthen⟩ := List.append_subset.mp (List.cons_subset.mp hws).2
    obtain ⟨hknows, hdirect, hnames, hus⟩ := h
    constructor
    · exact Law.node_within k hs ⟨hknows, hdirect, hnames, hus⟩ hws
    constructor
    · exact condition.obeys_within k hs.1 hknows ((List.sublist_append_left _ _).trans hus)
        hcondition
    · exact thenBranch.obeys_within k hs.2.1 ⟨hknows.stay (condition.walk_behind c), hdirect, hnames,
        (List.sublist_append_right _ _).trans hus⟩ hthen
  | .branch condition thenBranch (some elseBranch), c, p, k, hs, h, hws => by
    obtain ⟨hcondition, hbranches⟩ := List.append_subset.mp (List.cons_subset.mp hws).2
    obtain ⟨hthen, helse⟩ := List.append_subset.mp hbranches
    obtain ⟨hknows, hdirect, hnames, hus⟩ := h
    have husBranches := (List.sublist_append_right (condition.uses p) _).trans hus
    have hknows' := hknows.stay (condition.walk_behind c)
    constructor
    · exact Law.node_within k hs ⟨hknows, hdirect, hnames, hus⟩ hws
    constructor
    · exact condition.obeys_within k hs.1 hknows ((List.sublist_append_left _ _).trans hus)
        hcondition
    constructor
    · exact thenBranch.obeys_within k hs.2.1.1 ⟨hknows', hdirect, hnames,
        (List.sublist_append_left _ _).trans husBranches⟩ hthen
    · exact elseBranch.obeys_within k hs.2.2.1 ⟨hknows'.behind hdirect (thenBranch.walk_behind _),
        hdirect.behind, hnames.behind hdirect (thenBranch.declares_spelled hs.2.1.1),
        (List.sublist_append_right _ _).trans husBranches⟩ helse
  | .loop condition body, c, _, k, hs, h, hws => by
    obtain ⟨hcondition, hbody⟩ := List.append_subset.mp (List.cons_subset.mp hws).2
    obtain ⟨hknows, hdirect, hnames, hus⟩ := h
    constructor
    · exact Law.node_within k hs ⟨hknows, hdirect, hnames, hus⟩ hws
    constructor
    · exact condition.obeys_within k hs.1 hknows ((List.sublist_append_left _ _).trans hus)
        hcondition
    · exact body.obeys_within k hs.2.1 ⟨hknows.stay (condition.walk_behind c), hdirect, hnames,
        (List.sublist_append_right _ _).trans hus⟩ hbody
  | .function (.mk (some name) line params body), c, _, k, hs, h, hws =>
    ⟨Law.node_within k hs h hws,
      (FunctionDecl.mk (some name) line params body).obeys_within .function false false k hs.2.2
        (h.knows.behind h.direct (behind_declareAndDefine name c)) h.uses
        (List.cons_subset.mp hws).2⟩
  | .function (.mk none line params body), _, p, k, hs, h, hws =>
    ⟨Law.node_within k hs h hws,
      (FunctionDecl.mk none line params body).obeys_within .function false false k hs.2.2
        ((Path.behind_nil p).symm ▸ h.knows) h.uses (List.cons_subset.mp hws).2⟩
  | .ret _ none, _, _, k, hs, h, hws => ⟨Law.node_within k hs h hws, trivial⟩
  | .ret keyword (some value), c, _, k, hs, h, hws =>
    ⟨Law.node_within k hs h hws,
      value.obeys_within k hs (h.knows.stay (behind_useReturn keyword true c)) h.uses
        (List.cons_subset.mp hws).2⟩
  | .classDecl name superclass methods, c, _, k, hs, h, hws =>
    ⟨Law.node_within k hs h hws,
      obeysMethods_within methods _ hs.2 (h.knows.enterClass h.direct name superclass)
        ((List.sublist_append_right _ _).trans h.uses) (List.cons_subset.mp hws).2⟩

theorem obeysStmts_within : ∀ (ss : List Stmt) {c : Context} {p : Path} (k : ClassKind),
    SpelledStmts ss → c.Knows p → p.Direct → p.Unreserved → (usesStmts ss p).Sublist us →
      stationsStmts ss c ⊆ ws → ObeysStmts (.within us ws) k ss
  | [], _, _, _, _, _, _, _, _, _ => trivial
  | s :: rest, c, _, k, hs, h, hdirect, hnames, hus, hws => by
    obtain ⟨hfirst, hrest⟩ := List.append_subset.mp hws
    constructor
    · exact s.obeys_within k hs.1 ⟨h, hdirect, hnames, (List.sublist_append_left _ _).trans hus⟩ hfirst
    · exact obeysStmts_within rest k hs.2 (h.behind hdirect (s.walk_behind c)) hdirect.behind
        (hnames.behind hdirect (s.declares_spelled hs.1))
        ((List.sublist_append_right _ _).trans hus) hrest

theorem obeysMethods_within : ∀ (ds : List FunctionDecl) {c : Context} {p : Path} (k : ClassKind),
    SpelledMethods ds → c.Knows p → (usesMethods ds p).Sublist us → stationsMethods ds c ⊆ ws →
      ObeysMethods (.within us ws) k ds
  | [], _, _, _, _, _, _, _ => trivial
  | d :: rest, c, _, k, hs, h, hus, hws => by
    obtain ⟨hfirst, hrest⟩ := List.append_subset.mp hws
    constructor
    · exact d.obeys_within (methodKind d) true d.isInitializer k hs.1 h
        ((List.sublist_append_left _ _).trans hus) hfirst
    · exact obeysMethods_within rest k hs.2 (h.stay (d.walk_behind (methodKind d) c))
        ((List.sublist_append_right _ _).trans hus) hrest

end

end LoxLang
