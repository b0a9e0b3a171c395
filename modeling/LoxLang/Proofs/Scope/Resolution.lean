import LoxLang.Proofs.Scope.Alike
import LoxLang.Proofs.Scope.Renaming

/-!
What the static walk says about a tree that it finds no error in. The walk over a renamed tree finds no
error either and enters the same distances, and the two trees run alike, with every reference in the
layers in which the walk visits it.

What is needed of a tree is that it is spelled as parsed trees are: its variables are not named like the
scopes of classes, and no declaration is the body of a loop or a branch.
-/

namespace LoxLang

open Scope

/-! ### Parsed trees -/

mutual

def Expr.Spelled : Expr → Prop
  | .literal _ => True
  | .group inner => inner.Spelled
  | .unary _ right => right.Spelled
  | .binary left _ right => left.Spelled ∧ right.Spelled
  | .logical left _ right => left.Spelled ∧ right.Spelled
  | .ident _ => True
  | .assign ref value => ¬Reserved ref.name.lexeme ∧ value.Spelled
  | .call callee _ arguments => callee.Spelled ∧ SpelledExprs arguments
  | .function decl => decl.Spelled
  | .get object _ => object.Spelled
  | .set object _ value => object.Spelled ∧ value.Spelled
  | .this ref => ref.name.lexeme = "this"
  | .super ref _ => ref.name.lexeme = "super"

def SpelledExprs : List Expr → Prop
  | [] => True
  | e :: rest => e.Spelled ∧ SpelledExprs rest

def FunctionDecl.Spelled : FunctionDecl → Prop
  | .mk _ _ params body => (∀ p ∈ params, ¬Reserved p.lexeme) ∧ SpelledStmts body

def Stmt.Spelled : Stmt → Prop
  | .expr value => value.Spelled
  | .print value => value.Spelled
  | .var name none => ¬Reserved name.lexeme
  | .var name (some value) => ¬Reserved name.lexeme ∧ value.Spelled
  | .block body => SpelledStmts body
  | .branch condition thenBranch none =>
    condition.Spelled ∧ thenBranch.Spelled ∧ thenBranch.declared? = none
  | .branch condition thenBranch (some elseBranch) =>
    condition.Spelled ∧ (thenBranch.Spelled ∧ thenBranch.declared? = none) ∧
      elseBranch.Spelled ∧ elseBranch.declared? = none
  | .loop condition body => condition.Spelled ∧ body.Spelled ∧ body.declared? = none
  | .function decl =>
    (∃ name, decl.name? = some name) ∧ ¬Reserved decl.name ∧ decl.Spelled
  | .ret _ none => True
  | .ret _ (some value) => value.Spelled
  | .classDecl name _ methods => ¬Reserved name.lexeme ∧ SpelledMethods methods

def SpelledStmts : List Stmt → Prop
  | [] => True
  | s :: rest => s.Spelled ∧ SpelledStmts rest

def SpelledMethods : List FunctionDecl → Prop
  | [] => True
  | d :: rest => d.Spelled ∧ SpelledMethods rest

end

namespace Scope

/-! ### Layers along the walk -/

namespace Layers

variable {Γ : Layers} {name : String}

def origins (Γ : Layers) : List Origin :=
  Γ.map Layer.origin

/-- The layers behind a list of statements. -/
def afterAll : Layers → List Stmt → Layers
  | Γ, [] => Γ
  | Γ, s :: rest => afterAll (Γ.after s) rest

/-- Where `this` or `super` may stand, what it stands for is around. -/
structure Admits (Γ : Layers) (kind : ClassKind) : Prop where
  method : kind ≠ .none → Γ.InMethod
  derived : kind = .derived → Γ.InDerived

theorem origins_mark (Γ : Layers) (name : String) (ready : Bool) :
    (Γ.mark name ready).origins = Γ.origins := by
  cases Γ <;> rfl

theorem origins_after (Γ : Layers) (s : Stmt) : (Γ.after s).origins = Γ.origins := by
  unfold after
  split
  · exact origins_mark Γ _ _
  · rfl

theorem tail_afterAll (Γ : Layers) (ss : List Stmt) : (Γ.afterAll ss).tail = Γ.tail := by
  have tail_after : ∀ (Γ : Layers) (s : Stmt), (Γ.after s).tail = Γ.tail := by
    intro Γ s
    unfold after
    split
    · cases Γ <;> rfl
    · rfl
  induction ss generalizing Γ with
  | nil => rfl
  | cons s ss ih => rw [afterAll, ih, tail_after]

theorem mark_mark (Γ : Layers) (name : String) (ready ready' : Bool) :
    (Γ.mark name ready).mark name ready' = Γ.mark name ready' := by
  cases Γ with
  | nil => rfl
  | cons l Γ => simp only [mark, Bindings.insert_insert]

theorem here_mark (Γ : Layers) (name other : String) (ready : Bool) :
    (Γ.mark name ready).here other = Γ.here other := by
  cases Γ <;> rfl

theorem Admits.mark {kind : ClassKind} (h : Γ.Admits kind) (hname : ¬Reserved name) (ready : Bool) :
    (Γ.mark name ready).Admits kind := by
  have horigin : ∀ d, (Γ.mark name ready).originAt? d = Γ.originAt? d := by
    intro d
    have hmap : ∀ Γ : Layers, Γ.originAt? d = Γ.origins[d]? := fun Γ => by
      rw [originAt?, origins, List.getElem?_map]
    rw [hmap, hmap, origins_mark]
  constructor
  · intro hkind
    obtain ⟨d, hdistance, hreceiver⟩ := h.method hkind
    have hne : name ≠ "this" := fun heq => hname (.inl heq)
    exact ⟨d, (distance?_mark hne).trans hdistance, (horigin d).trans hreceiver⟩
  · intro hkind
    obtain ⟨d, hdistance, hinner, houter⟩ := h.derived hkind
    have hne : name ≠ "super" := fun heq => hname (.inr heq)
    exact ⟨d, (distance?_mark hne).trans hdistance, (horigin d).trans hinner,
      (horigin (d + 1)).trans houter⟩

theorem distance?_cons {l : Layer} (hl : l.names.contains name = false) :
    distance? (l :: Γ) name = (Γ.distance? name).map (· + 1) := by
  rw [distance?, List.findIdx?_cons, hl]
  rfl

/-- A scope of variables leaves the receiver and the superclass around in place. -/
theorem Admits.cons {kind : ClassKind} (h : Γ.Admits kind) {l : Layer}
    (hl : ∀ name, Reserved name → l.names.contains name = false) :
    Layers.Admits (l :: Γ) kind := by
  constructor
  · intro hkind
    obtain ⟨d, hdistance, hreceiver⟩ := h.method hkind
    exact ⟨d + 1, by rw [distance?_cons (hl _ (.inl rfl)), hdistance]; rfl, hreceiver⟩
  · intro hkind
    obtain ⟨d, hdistance, hinner, houter⟩ := h.derived hkind
    exact ⟨d + 1, by rw [distance?_cons (hl _ (.inr rfl)), hdistance]; rfl, hinner, houter⟩

/-- Inside a class with a superclass. -/
theorem admits_methods (Γ : Layers) (kind : ClassKind) : (Γ.forMethods true).Admits kind :=
  ⟨fun _ => ⟨0, rfl, rfl⟩, fun _ => ⟨0, rfl, rfl, rfl⟩⟩

/-- Inside a class without one. -/
theorem admits_base (Γ : Layers) : (Γ.forMethods false).Admits .base :=
  ⟨fun _ => ⟨0, rfl, rfl⟩, nofun⟩

/-- At the top level neither `this` nor `super` may stand. -/
theorem admits_globals : Layers.Admits [] .none :=
  ⟨fun h => absurd rfl h, nofun⟩

end Layers

/-! ### Two walks -/

/-- The contexts of two walks at one place of a tree and of the renamed tree. -/
structure Mirror (r : Renaming) (φ : List Bool) (Γ : Layers) (f : FunctionKind) (k : ClassKind)
    (c c' : Context) : Prop where
  covers : r.Covers φ Γ
  scopes : c.scopes = Γ.scopes
  scopes' : c'.scopes = Γ.renamed
  functionKind : c.functionKind = f
  functionKind' : c'.functionKind = f
  classKind : c.classKind = k
  classKind' : c'.classKind = k
  errors' : c'.errors = []
  distances : c'.distances = c.distances

theorem Context.innermost?_eq (c : Context) (name : String) :
    c.innermost? name = c.scopes.head?.bind fun scope => scope.find? name := by
  unfold Context.innermost?
  split
  case h_1 hscopes => rw [hscopes]; rfl
  case h_2 hscopes => rw [hscopes]; rfl

namespace Mirror

variable {r : Renaming} {φ : List Bool} {Γ : Layers} {f : FunctionKind} {k : ClassKind}
  {c c' : Context} {ref : Reference} {t t' : Token} {ready : Bool}

theorem innermost? (h : Mirror r φ Γ f k c c') (name : String) :
    c.innermost? name = Γ.innermost? name := by
  rw [Context.innermost?_eq, h.scopes]
  cases Γ <;> rfl

theorem innermost?_nameOf (h : Mirror r φ Γ f k c c') {name : String} (havoids : r.Avoids φ name) :
    c'.innermost? (Γ.nameOf name) = Γ.innermost? name := by
  rw [Context.innermost?_eq, h.scopes', h.covers.innermost? havoids]

theorem innermost?_here (h : Mirror r φ Γ f k c c') (name : String) :
    c'.innermost? (Γ.here name) = Γ.innermost? name := by
  rw [Context.innermost?_eq, h.scopes']
  cases Γ with
  | nil => rfl
  | cons l Γ => exact Bindings.find?_rename l.rename.injective l.names name

/-- The two walks enter one distance. -/
theorem bind (h : Mirror r φ Γ f k c c') (havoids : r.Avoids φ ref.name.lexeme)
    (htable : r.table.lookup ref.id = Γ.distance? ref.name.lexeme) :
    Mirror r φ Γ f k (c.bind ref) (c'.bind (r.reference φ ref)) := by
  have hdistance : c.distance? ref.name.lexeme = Γ.distance? ref.name.lexeme := by
    rw [Context.distance?, h.scopes, Layers.distance?_eq_scopes]
  have hdistance' : c'.distance? (r.reference φ ref).name.lexeme = Γ.distance? ref.name.lexeme := by
    rw [Context.distance?, h.scopes', h.covers.reference_lexeme havoids htable,
      h.covers.distance? havoids]
  obtain ⟨hcovers, hscopes, hscopes', hf, hf', hk, hk', herrors', hdistances⟩ := h
  unfold Context.bind
  rw [hdistance, hdistance']
  cases Γ.distance? ref.name.lexeme with
  | none => exact ⟨hcovers, hscopes, hscopes', hf, hf', hk, hk', herrors', hdistances⟩
  | some d =>
      refine ⟨hcovers, hscopes, hscopes', hf, hf', hk, hk', herrors', ?_⟩
      exact congrArg ((ref.id, d) :: ·) hdistances

theorem useIdent (h : Mirror r φ Γ f k c c') (havoids : r.Avoids φ ref.name.lexeme)
    (htable : r.table.lookup ref.id = Γ.distance? ref.name.lexeme)
    (herrors : (c.useIdent ref).errors = []) :
    Mirror r φ Γ f k (c.useIdent ref) (c'.useIdent (r.reference φ ref)) := by
  have hready : Γ.innermost? ref.name.lexeme ≠ some false := by
    intro hearly
    unfold Context.useIdent at herrors
    rw [if_pos ((h.innermost? _).trans hearly)] at herrors
    have hbefore := (Walked.bind ref (c := c.report ref.name .readInInitializer) rfl []).errors_nil
      herrors
    simp [Context.findings, Context.report] at hbefore
  unfold Context.useIdent
  rw [if_neg (by rwa [h.innermost?]), h.covers.reference_lexeme havoids htable,
    if_neg (by rwa [h.innermost?_nameOf havoids])]
  exact h.bind havoids htable

theorem mark (h : Mirror r φ Γ f k c c') {name : String} (havoids : r.Avoids φ name) (ready : Bool) :
    Mirror r φ (Γ.mark name ready) f k (c.mark name ready) (c'.mark (Γ.here name) ready) := by
  have kept : ∀ (c : Context) (name : String), (c.mark name ready).functionKind = c.functionKind ∧
      (c.mark name ready).classKind = c.classKind ∧ (c.mark name ready).errors = c.errors ∧
      (c.mark name ready).distances = c.distances := by
    intro c name
    unfold Context.mark
    split <;> exact ⟨rfl, rfl, rfl, rfl⟩
  obtain ⟨hf, hk, -, hdistances⟩ := kept c name
  obtain ⟨hf', hk', herrors', hdistances'⟩ := kept c' (Γ.here name)
  refine ⟨h.covers.mark havoids ready, ?_, ?_, hf.trans h.functionKind, hf'.trans h.functionKind',
    hk.trans h.classKind, hk'.trans h.classKind', herrors'.trans h.errors', ?_⟩
  · rw [Context.scopes_mark, h.scopes, Layers.scopes_mark]
  · rw [Context.scopes_mark, h.scopes', Layers.renamed_mark]
  · rw [hdistances', h.distances, hdistances]

/-- What is declared without complaint is new to its scope. -/
theorem declare (h : Mirror r φ Γ f k c c') (havoids : r.Avoids φ t.lexeme)
    (ht : t'.lexeme = Γ.here t.lexeme) (herrors : (c.declare t).errors = []) :
    Γ.innermost? t.lexeme = none ∧
      Mirror r φ (Γ.mark t.lexeme false) f k (c.declare t) (c'.declare t') := by
  have hfresh : Γ.innermost? t.lexeme = none := by
    by_contra hdeclared
    unfold Context.declare at herrors
    rw [h.innermost?, if_pos (Option.isSome_iff_ne_none.mpr hdeclared)] at herrors
    simp [Context.report] at herrors
  refine ⟨hfresh, ?_⟩
  unfold Context.declare
  rw [ht, h.innermost?, h.innermost?_here, hfresh]
  exact h.mark havoids false

theorem declareAndDefine (h : Mirror r φ Γ f k c c') (havoids : r.Avoids φ t.lexeme)
    (ht : t'.lexeme = Γ.here t.lexeme) (herrors : (c.declareAndDefine t).errors = []) :
    Γ.innermost? t.lexeme = none ∧
      Mirror r φ (Γ.mark t.lexeme true) f k (c.declareAndDefine t) (c'.declareAndDefine t') := by
  have hdeclare := (Walked.mark t.lexeme true (c.declare t)).errors_nil herrors
  obtain ⟨hfresh, h⟩ := h.declare havoids ht hdeclare
  have hdefine := h.mark havoids true
  rw [Layers.mark_mark, Layers.here_mark, ← ht] at hdefine
  exact ⟨hfresh, hdefine⟩

theorem openScope (h : Mirror r φ Γ f k c c') (origin : Origin) (flag : Bool) :
    Mirror r (flag :: φ) (⟨origin, [], r.perm flag⟩ :: Γ) f k c.openScope c'.openScope := by
  refine ⟨.cons rfl (fun _ => rfl) h.covers, ?_, ?_, h.functionKind, h.functionKind', h.classKind,
    h.classKind', h.errors', h.distances⟩
  · exact congrArg ([] :: ·) h.scopes
  · exact congrArg ([] :: ·) h.scopes'

theorem inFunction (h : Mirror r φ Γ f k c c') (kind : FunctionKind) :
    Mirror r φ Γ kind k { c with functionKind := kind } { c' with functionKind := kind } :=
  ⟨h.covers, h.scopes, h.scopes', rfl, rfl, h.classKind, h.classKind', h.errors', h.distances⟩

theorem inClass (h : Mirror r φ Γ f k c c') (kind : ClassKind) :
    Mirror r φ Γ f kind { c with classKind := kind } { c' with classKind := kind } :=
  ⟨h.covers, h.scopes, h.scopes', h.functionKind, h.functionKind', rfl, rfl, h.errors', h.distances⟩

/-- Closing a scope leads back to the scopes around it. -/
theorem closeScope {flag : Bool} {Γ' : Layers} (h : Mirror r (flag :: φ) Γ' f k c c') :
    Mirror r φ Γ'.tail f k c.closeScope c'.closeScope := by
  obtain ⟨hcovers, hscopes, hscopes', hf, hf', hk, hk', herrors', hdistances⟩ := h
  cases hcovers with
  | cons hrename hfresh hcovers =>
      refine ⟨hcovers, ?_, ?_, hf, hf', hk, hk', herrors', hdistances⟩
      · exact congrArg List.tail hscopes
      · exact congrArg List.tail hscopes'

theorem openReceiver (h : Mirror r φ Γ f k c c') (hr : r.OfVariables) :
    Mirror r (false :: φ) (.receiver :: Γ) f k (c.openScope.mark "this" true)
      (c'.openScope.mark "this" true) :=
  (h.openScope .receiver false).mark (fun _ heq => hr.fresh (.inl heq.symm)) true

theorem openSuperclass (h : Mirror r φ Γ f k c c') (hr : r.OfVariables) :
    Mirror r (false :: φ) (.superclass :: Γ) f k (c.openScope.mark "super" true)
      (c'.openScope.mark "super" true) :=
  (h.openScope .superclass false).mark (fun _ heq => hr.fresh (.inr heq.symm)) true

theorem parameters {flag : Bool} {l : Layer} {params : List Token}
    (h : Mirror r (flag :: φ) (l :: Γ) f k c c')
    (havoids : ∀ p ∈ params, r.Avoids (flag :: φ) p.lexeme)
    (herrors : (c.parameters params).errors = []) :
    Mirror r (flag :: φ)
      ({ l with names := params.foldl (fun b p => b.insert p.lexeme true) l.names } :: Γ) f k
      (c.parameters params) (c'.parameters (params.map (r.declared flag))) := by
  induction params generalizing l c c' with
  | nil => exact h
  | cons p params ih =>
      have hp := havoids p (List.mem_cons_self ..)
      have hrest := fun q hq => havoids q (List.mem_cons_of_mem _ hq)
      have hfirst := (Walked.parameters params (c.declareAndDefine p)).errors_nil herrors
      have hlexeme : (r.declared flag p).lexeme = Layers.here (l :: Γ) p.lexeme := by
        obtain _ | ⟨hrename, -, -⟩ := h.covers
        rw [Layers.here, hrename]
        exact Renaming.declared_lexeme fun hflag => hp (hflag ▸ List.mem_cons_self ..)
      exact ih (h.declareAndDefine hp hlexeme hfirst).2 hrest herrors

end Mirror

/-! ### Trees without static errors -/

/-- A reference and the renamed one, in the layers in which the walk visits it. Their names are related
by `N`. -/
structure Placed (P : Visit → Prop) (N : String → String → Prop) (Γ : Layers)
    (ref ref' : Reference) : Prop where
  id : ref'.id = ref.id
  line : ref.name.line = ref'.name.line
  name : ref'.name.lexeme = Γ.nameOf ref.name.lexeme
  names : N ref.name.lexeme ref'.name.lexeme
  visited : P ⟨ref, Γ.scopes, Γ.origins⟩

/-- Two walks from one place to another: if the first finds no error and only visits that satisfy
`P`, then the second finds the same, and `A` holds of the trees. -/
def Follows (r : Renaming) (P : Visit → Prop) (φ : List Bool) (Γ Γ' : Layers)
    (walk walk' : Context → Context) (visits : Context → List Origin → List Visit) (A : Prop) :
    Prop :=
  ∀ f k c c', Mirror r φ Γ f k c c' → Γ.Admits k → (walk c).errors = [] →
    (∀ v ∈ visits c Γ.origins, P v) → A ∧ Mirror r φ Γ' f k (walk c) (walk' c')

namespace Follows

variable {r : Renaming} {P : Visit → Prop} {φ : List Bool} {Γ Γ₁ Γ₂ : Layers}
  {w w' x x' : Context → Context} {vs us : Context → List Origin → List Visit} {A B : Prop}

theorem imp (h : Follows r P φ Γ Γ₁ w w' vs A) (hAB : A → B) : Follows r P φ Γ Γ₁ w w' vs B := by
  intro f k c c' hmirror hadmits herrors hvisits
  obtain ⟨hA, hafter⟩ := h f k c c' hmirror hadmits herrors hvisits
  exact ⟨hAB hA, hafter⟩

theorem stay (hA : A) : Follows r P φ Γ Γ id id (fun _ _ => []) A :=
  fun _ _ _ _ hmirror _ _ _ => ⟨hA, hmirror⟩

/-- One walk after another. -/
theorem seq (h : Follows r P φ Γ Γ₁ w w' vs A) (h' : Follows r P φ Γ₁ Γ₂ x x' us B)
    (hwalked : ∀ c os, Walked (us c os) c.findings (x c).findings)
    (horigins : Γ₁.origins = Γ.origins) (hadmits : ∀ k, Γ.Admits k → Γ₁.Admits k) :
    Follows r P φ Γ Γ₂ (fun c => x (w c)) (fun c => x' (w' c))
      (fun c os => vs c os ++ us (w c) os) (A ∧ B) := by
  intro f k c c' hmirror hk herrors hvisits
  have hfirst := (hwalked (w c) Γ.origins).errors_nil herrors
  obtain ⟨hA, hafter⟩ := h f k c c' hmirror hk hfirst fun v hv =>
    hvisits v (List.mem_append_left _ hv)
  obtain ⟨hB, hend⟩ := h' f k (w c) (w' c') hafter (hadmits k hk) herrors fun v hv =>
    hvisits v (List.mem_append_right _ (horigins ▸ hv))
  exact ⟨⟨hA, hB⟩, hend⟩

/-- One walk after another in the same place. -/
theorem both (h : Follows r P φ Γ Γ w w' vs A) (h' : Follows r P φ Γ Γ₂ x x' us B)
    (hwalked : ∀ c os, Walked (us c os) c.findings (x c).findings) :
    Follows r P φ Γ Γ₂ (fun c => x (w c)) (fun c => x' (w' c))
      (fun c os => vs c os ++ us (w c) os) (A ∧ B) :=
  h.seq h' hwalked rfl fun _ hk => hk

end Follows

/-- What the walk says of a renamed tree. -/
def Pair.Resolved (r : Renaming) (P : Visit → Prop) (φ : List Bool) : Pair → Prop
  | .expr e e' => e.Spelled → ∀ Γ : Layers, Follows r P φ Γ Γ e.walk e'.walk e.visits
      (Alike (Placed P r.Maps) Eq Γ (.expr e e'))
  | .exprs es es' => SpelledExprs es → ∀ Γ : Layers,
      Follows r P φ Γ Γ (walkExprs es) (walkExprs es') (visitsExprs es)
        (Alike (Placed P r.Maps) Eq Γ (.exprs es es'))
  | .decl d d' => d.Spelled → ∀ (kind : FunctionKind) (Γ : Layers),
      Follows r P φ Γ Γ (d.walk kind) (d'.walk kind) (d.visits kind)
        (Alike (Placed P r.Maps) Eq Γ (.decl d d'))
  | .methods ds ds' => SpelledMethods ds → ∀ Γ : Layers,
      Follows r P φ Γ Γ (walkMethods ds) (walkMethods ds') (visitsMethods ds)
        (Alike (Placed P r.Maps) Eq Γ (.methods ds ds'))
  | .stmt s s' => s.Spelled → ∀ Γ : Layers, Follows r P φ Γ (Γ.after s) s.walk s'.walk s.visits
      (Alike (Placed P r.Maps) Eq Γ (.stmt s s'))
  | .stmts ss ss' => SpelledStmts ss → ∀ Γ : Layers,
      Follows r P φ Γ (Γ.afterAll ss) (walkStmts ss) (walkStmts ss') (visitsStmts ss)
        (Alike (Placed P r.Maps) Eq Γ (.stmts ss ss'))

section

variable {r : Renaming} {P : Visit → Prop} {φ : List Bool} {Γ : Layers}

theorem SameToken.refl (t : Token) : SameToken Eq t t :=
  ⟨rfl, rfl, rfl⟩

theorem Renaming.Covers.placed (h : r.Covers φ Γ) {ref : Reference}
    (havoids : r.Avoids φ ref.name.lexeme)
    (htable : r.table.lookup ref.id = Γ.distance? ref.name.lexeme)
    (hP : P ⟨ref, Γ.scopes, Γ.origins⟩) : Placed P r.Maps Γ ref (r.reference φ ref) :=
  ⟨rfl, (Renaming.declared_line ref.name).symm, h.reference_lexeme havoids htable,
    Renaming.maps_reference ref, hP⟩

theorem visit_table (htable : ∀ v, P v → r.table.lookup v.ref.id = v.distance?) {ref : Reference}
    (hP : P ⟨ref, Γ.scopes, Γ.origins⟩) :
    r.table.lookup ref.id = Γ.distance? ref.name.lexeme :=
  (htable _ hP).trans (Layers.distance?_eq_scopes Γ ref.name.lexeme).symm

theorem follows_ident (htable : ∀ v, P v → r.table.lookup v.ref.id = v.distance?) {ref : Reference}
    (havoids : r.Avoids φ ref.name.lexeme) :
    Follows r P φ Γ Γ (Context.useIdent ref) (Context.useIdent (r.reference φ ref))
      (fun c os => [⟨ref, c.scopes, os⟩]) (Placed P r.Maps Γ ref (r.reference φ ref)) := by
  intro f k c c' hmirror hk herrors hvisits
  have hP := hvisits _ (List.mem_singleton_self _)
  rw [hmirror.scopes] at hP
  have hlookup := visit_table htable hP
  exact ⟨hmirror.covers.placed havoids hlookup hP, hmirror.useIdent havoids hlookup herrors⟩

theorem follows_bind (htable : ∀ v, P v → r.table.lookup v.ref.id = v.distance?) {ref : Reference}
    (havoids : r.Avoids φ ref.name.lexeme) :
    Follows r P φ Γ Γ (Context.bind ref) (Context.bind (r.reference φ ref))
      (fun c os => [⟨ref, c.scopes, os⟩]) (Placed P r.Maps Γ ref (r.reference φ ref)) := by
  intro f k c c' hmirror hk herrors hvisits
  have hP := hvisits _ (List.mem_singleton_self _)
  rw [hmirror.scopes] at hP
  have hlookup := visit_table htable hP
  exact ⟨hmirror.covers.placed havoids hlookup hP, hmirror.bind havoids hlookup⟩

/-- A name that the renaming has nothing to do with is bound to no flagged scope under another
name. -/
theorem Renaming.OfVariables.reference_of_reserved (hr : r.OfVariables) {ref : Reference}
    (hname : Reserved ref.name.lexeme) :
    r.Avoids φ ref.name.lexeme ∧ r.reference φ ref = ref := by
  constructor
  · exact fun _ heq => hr.fresh (heq ▸ hname)
  · have hne : ref.name.lexeme ≠ r.name := fun heq => hr.name (heq ▸ hname)
    simp [Renaming.reference, Renaming.declared, hne]

theorem follows_this (hr : r.OfVariables)
    (htable : ∀ v, P v → r.table.lookup v.ref.id = v.distance?) {ref : Reference}
    (hname : ref.name.lexeme = "this") :
    Follows r P φ Γ Γ (Context.useThis ref) (Context.useThis ref)
      (fun c os => if c.classKind = .none then [] else [⟨ref, c.scopes, os⟩])
      (Placed P r.Maps Γ ref ref ∧ Γ.InMethod) := by
  obtain ⟨havoids, href⟩ := hr.reference_of_reserved (φ := φ) (.inl hname)
  intro f k c c' hmirror hk herrors hvisits
  have hkind : c.classKind ≠ .none := by
    intro hnone
    unfold Context.useThis at herrors
    rw [if_pos hnone] at herrors
    simp [Context.report] at herrors
  have hkind' : c'.classKind ≠ .none := by
    rwa [hmirror.classKind', ← hmirror.classKind]
  unfold Context.useThis at herrors ⊢
  dsimp only at hvisits
  rw [if_neg hkind] at herrors hvisits ⊢
  rw [if_neg hkind']
  obtain ⟨hplaced, hafter⟩ := follows_bind htable havoids f k c c' hmirror hk herrors hvisits
  rw [href] at hplaced hafter
  exact ⟨⟨hplaced, hk.method (hmirror.classKind ▸ hkind)⟩, hafter⟩

theorem follows_super (hr : r.OfVariables)
    (htable : ∀ v, P v → r.table.lookup v.ref.id = v.distance?) {ref : Reference}
    (hname : ref.name.lexeme = "super") :
    Follows r P φ Γ Γ (Context.useSuper ref) (Context.useSuper ref)
      (fun c os => [⟨ref, c.scopes, os⟩]) (Placed P r.Maps Γ ref ref ∧ Γ.InDerived) := by
  obtain ⟨havoids, href⟩ := hr.reference_of_reserved (φ := φ) (.inr hname)
  intro f k c c' hmirror hk herrors hvisits
  have hreported : ∀ cause, ((c.report ref.name cause).bind ref).errors ≠ [] := by
    intro cause hnil
    have hbefore := (Walked.bind ref (c := c.report ref.name cause) rfl []).errors_nil hnil
    simp [Context.findings, Context.report] at hbefore
  have hkind : c.classKind = .derived := by
    unfold Context.useSuper at herrors
    cases hkind : c.classKind with
    | derived => rfl
    | none =>
        rw [hkind] at herrors
        exact absurd herrors (hreported _)
    | base =>
        rw [hkind] at herrors
        exact absurd herrors (hreported _)
  have hkind' : c'.classKind = .derived := by
    rwa [hmirror.classKind', ← hmirror.classKind]
  unfold Context.useSuper at herrors ⊢
  rw [hkind] at herrors ⊢
  rw [hkind']
  obtain ⟨hplaced, hafter⟩ := follows_bind htable havoids f k c c' hmirror hk herrors hvisits
  rw [href] at hplaced hafter
  exact ⟨⟨hplaced, hk.derived (hmirror.classKind.symm.trans hkind)⟩, hafter⟩

theorem follows_ret (keyword : Token) (hasValue : Bool) :
    Follows r P φ Γ Γ (Context.useReturn keyword hasValue) (Context.useReturn keyword hasValue)
      (fun _ _ => []) True := by
  intro f k c c' hmirror hk herrors hvisits
  unfold Context.useReturn at herrors ⊢
  dsimp only at herrors ⊢
  by_cases hnone : c.functionKind = .none
  · rw [if_pos hnone] at herrors
    split at herrors <;> simp [Context.report] at herrors
  by_cases hinit : hasValue = true ∧ c.functionKind = .initializer
  · rw [if_neg hnone, if_pos hinit] at herrors
    simp [Context.report] at herrors
  have hsame : c'.functionKind = c.functionKind := hmirror.functionKind'.trans hmirror.functionKind.symm
  have hnone' : c'.functionKind ≠ .none := hsame ▸ hnone
  have hinit' : ¬(hasValue = true ∧ c'.functionKind = .initializer) := hsame ▸ hinit
  rw [if_neg hnone, if_neg hinit, if_neg hnone', if_neg hinit']
  exact ⟨trivial, hmirror⟩

end

theorem not_reserved_of_declared {s : Stmt} (h : s.Spelled) {name : String}
    (hname : s.declared? = some name) : ¬Reserved name := by
  cases s with
  | var t value =>
      cases hname
      cases value with
      | none => exact h
      | some e => exact h.1
  | function d =>
      cases hname
      exact h.2.1
  | classDecl t superclass methods =>
      cases hname
      exact h.1
  | _ => cases hname

section

variable {r : Renaming} {P : Visit → Prop} {φ : List Bool} {Γ : Layers}

theorem Renaming.Covers.declared (h : r.Covers φ Γ) {t : Token} (havoids : r.Avoids φ t.lexeme) :
    TokenTo Eq (Γ.here t.lexeme) t (r.declared (Renaming.here φ) t) := by
  refine ⟨Renaming.declared_kind t, ?_, (Renaming.declared_line t).symm⟩
  cases h with
  | nil => rfl
  | cons hrename _ _ =>
      rw [Layers.here, hrename]
      exact Renaming.declared_lexeme fun hflag => havoids (hflag ▸ List.mem_cons_self ..)

/-- A name that is declared, but is none of those that are replaced, is kept. -/
theorem Renaming.Covers.here_of_kept (h : r.Covers φ Γ) {name : String} (havoids : r.Avoids φ name)
    (hkept : Renaming.here φ = true → name ≠ r.name) : Γ.here name = name := by
  cases h with
  | nil => rfl
  | @cons flag φ l Γ hrename hfresh h =>
      rw [Layers.here, hrename]
      cases flag with
      | false => rfl
      | true => exact Renaming.perm_of_ne (hkept rfl) fun _ => havoids (List.mem_cons_self ..)

theorem Renaming.Renames.name?_eq {d d' : FunctionDecl} (h : r.Renames φ (.decl d d')) :
    d'.name? = d.name? := by
  cases h
  rfl

/-- A class that is entered without complaint does not inherit from itself. -/
theorem errors_enterClass {c : Context} {n : Token} {up : Reference}
    (h : (c.enterClass n (some up)).errors = []) : up.name.lexeme ≠ n.lexeme ∧
      (({ (({ c with classKind := .base } : Context).declareAndDefine n) with
        classKind := .derived } : Context).useIdent up).errors = [] := by
  have key : ∀ c : Context, (((c.useIdent up).openScope.mark "super" true).openScope.mark "this"
      true).errors = [] → (c.useIdent up).errors = [] := by
    intro c hc
    exact (Walked.mark "super" true (c.useIdent up).openScope).errors_nil
      ((Walked.mark "this" true _).errors_nil hc)
  unfold Context.enterClass at h
  dsimp only at h
  split at h
  · have hreport := (Walked.useIdent up (by rfl) []).errors_nil (key _ h)
    simp [Context.findings, Context.report] at hreport
  case isFalse hne => exact ⟨hne, key _ h⟩

theorem Renaming.reference_ne {ref : Reference} {name : String} (havoids : r.Avoids φ name)
    (hne : ref.name.lexeme ≠ name) : (r.reference φ ref).name.lexeme ≠ name := by
  unfold Renaming.reference Renaming.declared
  dsimp only
  split
  case isTrue h => exact fun heq => havoids.flagOf h.1 heq.symm
  case isFalse => exact hne

theorem Layers.after_of_plain {s : Stmt} (h : s.declared? = none) : Γ.after s = Γ := by
  rw [Layers.after, h]

namespace Pair.Resolved

theorem decl {flag : Bool} {name : Option Token} {line : Nat} {params : List Token}
    {body body' : List Stmt} (hfresh : ∀ p ∈ params, r.Avoids (flag :: φ) p.lexeme)
    (ih : Resolved r P (flag :: φ) (.stmts body body')) :
    Resolved r P φ (.decl (.mk name line params body)
      (.mk name line (params.map (r.declared flag)) body')) := by
  intro hs kind Γ f k c c' hmirror hk herrors hvisits
  have hopened := (hmirror.inFunction kind).openScope (.call (.mk name line params body)) flag
  have hparams := (walkStmts_spec body _ []).errors_nil herrors
  have hinside := hopened.parameters hfresh hparams
  have hno : ∀ name, Reserved name → (parameterScope params).contains name = false := by
    intro name hname
    rw [← Bool.not_eq_true, contains_parameterScope, List.mem_map]
    rintro ⟨p, hp, rfl⟩
    exact hs.1 p hp hname
  have hadmits : Layers.Admits
      (⟨.call (.mk name line params body), parameterScope params, r.perm flag⟩ :: Γ) k :=
    hk.cons hno
  obtain ⟨hbody, hafter⟩ := ih hs.2 _ kind k _ _ hinside hadmits herrors hvisits
  have hclosed := hafter.closeScope
  rw [Layers.tail_afterAll] at hclosed
  have hname : Option.Rel (SameToken Eq) name name := by
    cases name with
    | none => exact .none
    | some t => exact .some (.refl t)
  refine ⟨.decl hname rfl ?_ hbody, ?_⟩
  · refine List.forall₂_map_right_iff.mpr (List.forall₂_same.mpr fun p hp => ?_)
    refine ⟨Renaming.declared_kind p, ?_, (Renaming.declared_line p).symm⟩
    exact Renaming.declared_lexeme fun hflag => hfresh p hp (hflag ▸ List.mem_cons_self ..)
  · have houter := hclosed.inFunction f
    dsimp only [FunctionDecl.walk]
    rw [hmirror.functionKind, hmirror.functionKind']
    exact houter

theorem moreMethods {d d' : FunctionDecl} {ds ds' : List FunctionDecl} (hname : d'.name? = d.name?)
    (ihd : Resolved r P φ (.decl d d')) (ihds : Resolved r P φ (.methods ds ds')) :
    Resolved r P φ (.methods (d :: ds) (d' :: ds')) := by
  intro hs Γ
  have hkind : methodKind d' = methodKind d := by
    rw [methodKind, FunctionDecl.isInitializer, FunctionDecl.name, hname]
    rfl
  have hwalk : walkMethods (d' :: ds') = fun c => walkMethods ds' (d'.walk (methodKind d) c) := by
    funext c
    rw [walkMethods, hkind]
  change Follows r P _ Γ Γ _ (walkMethods (d' :: ds')) _ _
  rw [hwalk]
  refine ((ihd hs.1 (methodKind d) Γ).both (ihds hs.2 Γ) (walkMethods_spec ds)).imp ?_
  rintro ⟨hd, hds⟩
  exact .moreMethods hd hds

theorem setVar {n : Token} {v v' : Expr} (hfresh : r.Avoids φ n.lexeme)
    (ih : Resolved r P φ (.expr v v')) :
    Resolved r P φ (.stmt (.var n (some v)) (.var (r.declared (Renaming.here φ) n) (some v'))) := by
  intro hs Γ f k c c' hmirror hk herrors hvisits
  have htoken := hmirror.covers.declared hfresh
  have hvalue := (Walked.mark n.lexeme true (v.walk (c.declare n))).errors_nil herrors
  have hdeclare := (v.walk_spec (c.declare n) []).errors_nil hvalue
  obtain ⟨hnew, hbefore⟩ := hmirror.declare hfresh htoken.lexeme hdeclare
  obtain ⟨hv, hafter⟩ := ih hs.2 (Γ.mark n.lexeme false) f k _ _ hbefore (hk.mark hs.1 false)
    hvalue (by rwa [Layers.origins_mark])
  have hdefine := hafter.mark hfresh true
  rw [Layers.mark_mark, Layers.here_mark, ← htoken.lexeme] at hdefine
  exact ⟨.setVar htoken hnew hv, hdefine⟩

theorem block {flag : Bool} {body body' : List Stmt}
    (ih : Resolved r P (flag :: φ) (.stmts body body')) :
    Resolved r P φ (.stmt (.block body) (.block body')) := by
  intro hs Γ f k c c' hmirror hk herrors hvisits
  have hopened := hmirror.openScope (.block body) flag
  obtain ⟨hbody, hafter⟩ := ih hs _ f k _ _ hopened (hk.cons fun _ _ => rfl) herrors hvisits
  have hclosed := hafter.closeScope
  rw [Layers.tail_afterAll] at hclosed
  exact ⟨.block hbody, hclosed⟩

theorem functionStmt {d d' : FunctionDecl} (hfresh : r.Avoids φ d.name)
    (hkept : Renaming.here φ = true → d.name ≠ r.name) (hsame : d'.name? = d.name?)
    (ih : Resolved r P φ (.decl d d')) : Resolved r P φ (.stmt (.function d) (.function d')) := by
  intro hs Γ f k c c' hmirror hk herrors hvisits
  obtain ⟨⟨t, ht⟩, hreserved, hsd⟩ := hs
  have hname : d.name = t.lexeme := by
    rw [FunctionDecl.name, ht]
  have ht' : d'.name? = some t := hsame.trans ht
  dsimp only [Stmt.walk, Stmt.visits] at herrors hvisits ⊢
  rw [ht] at herrors hvisits ⊢
  rw [ht']
  have hhere := hmirror.covers.here_of_kept hfresh hkept
  have hdeclare := (d.walk_spec .function _ []).errors_nil herrors
  rw [hname] at hhere hfresh hreserved
  obtain ⟨hnew, hbefore⟩ := hmirror.declareAndDefine hfresh hhere.symm hdeclare
  obtain ⟨hd, hafter⟩ := ih hsd .function (Γ.mark t.lexeme true) f k _ _ hbefore
    (hk.mark hreserved true) herrors (by rwa [Layers.origins_mark])
  refine ⟨.functionStmt ?_ ?_ ?_, ?_⟩
  · rwa [hname]
  · rwa [hname]
  · rwa [hname]
  · change Mirror r _ (Γ.mark d.name true) f k _ _
    rwa [hname]

theorem baseClass (hr : r.OfVariables) {n : Token} {ms ms' : List FunctionDecl}
    (hfresh : r.Avoids φ n.lexeme) (hkept : Renaming.here φ = true → n.lexeme ≠ r.name)
    (ih : Resolved r P (false :: φ) (.methods ms ms')) :
    Resolved r P φ (.stmt (.classDecl n none ms) (.classDecl n none ms')) := by
  intro hs Γ f k c c' hmirror hk herrors hvisits
  have hentered := (walkMethods_spec ms (c.enterClass n none) []).errors_nil herrors
  have hdeclare := (Walked.mark "this" true
    (({ c with classKind := .base } : Context).declareAndDefine n).openScope).errors_nil hentered
  have hhere := hmirror.covers.here_of_kept hfresh hkept
  obtain ⟨hnew, hnamed⟩ := (hmirror.inClass .base).declareAndDefine hfresh hhere.symm hdeclare
  obtain ⟨hms, hafter⟩ := ih hs.2 _ f .base _ _ (hnamed.openReceiver hr)
    (Layers.admits_base _) herrors (by
    rwa [Layers.origins, List.map_cons, ← Layers.origins, Layers.origins_mark])
  have houter := hafter.closeScope.inClass k
  refine ⟨.baseClass (.refl n) hhere hnew hms, ?_⟩
  dsimp only [Stmt.walk]
  rw [hmirror.classKind, hmirror.classKind']
  exact houter

/-- A class that inherits is entered behind a look-up of the other class. -/
theorem derivedClass (hr : r.OfVariables)
    (htable : ∀ v, P v → r.table.lookup v.ref.id = v.distance?) {n : Token} {up : Reference}
    {ms ms' : List FunctionDecl} (hfresh : r.Avoids φ n.lexeme)
    (hkept : Renaming.here φ = true → n.lexeme ≠ r.name) (hup : r.Avoids φ up.name.lexeme)
    (ih : Resolved r P (false :: false :: φ) (.methods ms ms')) :
    Resolved r P φ
      (.stmt (.classDecl n (some up) ms) (.classDecl n (some (r.reference φ up)) ms')) := by
  intro hs Γ f k c c' hmirror hk herrors hvisits
  have hentered := (walkMethods_spec ms (c.enterClass n (some up)) []).errors_nil herrors
  obtain ⟨hne, hident⟩ := errors_enterClass hentered
  have hdeclare := (Walked.useIdent up (c :=
    { (({ c with classKind := .base } : Context).declareAndDefine n) with
      classKind := .derived }) rfl []).errors_nil hident
  have hhere := hmirror.covers.here_of_kept hfresh hkept
  obtain ⟨hnew, hnamed⟩ := (hmirror.inClass .base).declareAndDefine hfresh hhere.symm hdeclare
  have hP := hvisits _ (List.mem_append_left _ (List.mem_singleton_self _))
  rw [Context.scopes_declareAndDefine, hmirror.scopes, ← Layers.scopes_mark,
    ← Layers.origins_mark Γ n.lexeme true] at hP
  have hlookup := visit_table htable hP
  have hbound := (hnamed.inClass .derived).useIdent hup hlookup hident
  have hne' : (r.reference _ up).name.lexeme ≠ n.lexeme := r.reference_ne hfresh hne
  have henter : c.enterClass n (some up) =
      ((({ (({ c with classKind := .base } : Context).declareAndDefine n) with
        classKind := .derived } : Context).useIdent up).openScope.mark "super" true).openScope.mark
          "this" true := by
    unfold Context.enterClass
    dsimp only
    rw [if_neg hne]
  dsimp only [Stmt.walk, Stmt.visits] at herrors hvisits ⊢
  rw [henter] at herrors hvisits ⊢
  obtain ⟨hms, hafter⟩ := ih hs.2 _ f .derived _ _
    ((hbound.openSuperclass hr).openReceiver hr) (Layers.admits_methods _ _) herrors
    fun v hv => hvisits v (List.mem_append_right _ (by
      rwa [Layers.origins, List.map_cons, List.map_cons, ← Layers.origins,
        Layers.origins_mark] at hv))
  have houter := hafter.closeScope.closeScope.inClass k
  refine ⟨.derivedClass (.refl n) hhere hnew (hnamed.covers.placed hup hlookup hP) hne hms, ?_⟩
  dsimp only [Context.enterClass]
  rw [hmirror.classKind, hmirror.classKind', if_neg hne']
  exact houter

end Pair.Resolved

/-- A tree without static errors and its renaming are walked with the same findings, and run alike. -/
theorem Renaming.Renames.resolved (hr : r.OfVariables)
    (htable : ∀ v, P v → r.table.lookup v.ref.id = v.distance?) {p : Pair} (h : r.Renames φ p) :
    p.Resolved r P φ := by
  induction h with
  | literal => exact fun _ Γ => Follows.stay .literal
  | group _ ih => exact fun hs Γ => (ih hs Γ).imp .group
  | unary _ ih => exact fun hs Γ => (ih hs Γ).imp (.unary (.refl _))
  | @binary _ l _ o e _ _ _ ihl ihe =>
      intro hs Γ
      refine ((ihl hs.1 Γ).both (ihe hs.2 Γ) e.walk_spec).imp ?_
      rintro ⟨hl, he⟩
      exact .binary hl (.refl o) he
  | @logical _ l _ o e _ _ _ ihl ihe =>
      intro hs Γ
      refine ((ihl hs.1 Γ).both (ihe hs.2 Γ) e.walk_spec).imp ?_
      rintro ⟨hl, he⟩
      exact .logical hl (.refl o) he
  | ident hfresh => exact fun _ Γ => (follows_ident htable hfresh).imp .ident
  | @assign _ ref _ _ hfresh _ ih =>
      intro hs Γ
      refine ((ih hs.2 Γ).both (follows_bind htable hfresh) fun c os => .bind ref rfl os).imp ?_
      rintro ⟨hv, href⟩
      exact .assign href (fun heq => hs.1 (.inl heq)) (fun heq => hs.1 (.inr heq)) hv
  | @call _ f _ paren es _ _ _ ihf ihes =>
      intro hs Γ
      refine ((ihf hs.1 Γ).both (ihes hs.2 Γ) (walkExprs_spec es)).imp ?_
      rintro ⟨hf, hes⟩
      exact .call hf (.refl paren) hes
  | function _ ih => exact fun hs Γ => (ih hs .function Γ).imp .function
  | get _ ih => exact fun hs Γ => (ih hs Γ).imp fun ho => .get ho (.refl _)
  | @set _ o _ n v _ _ _ iho ihv =>
      intro hs Γ
      refine ((iho hs.1 Γ).both (ihv hs.2 Γ) v.walk_spec).imp ?_
      rintro ⟨ho, hv⟩
      exact .set ho (.refl n) hv
  | this =>
      intro hs Γ
      refine (follows_this hr htable hs).imp ?_
      rintro ⟨href, hmethod⟩
      exact .this href hs hmethod
  | super =>
      intro hs Γ
      refine (follows_super hr htable hs).imp ?_
      rintro ⟨href, hderived⟩
      exact .super href hs (.refl _) hderived
  | noExprs => exact fun _ Γ => Follows.stay .noExprs
  | @moreExprs _ e _ es _ _ _ ihe ihes =>
      intro hs Γ
      refine ((ihe hs.1 Γ).both (ihes hs.2 Γ) (walkExprs_spec es)).imp ?_
      rintro ⟨he, hes⟩
      exact .moreExprs he hes
  | decl hfresh _ ih => exact .decl hfresh ih
  | noMethods => exact fun _ Γ => Follows.stay .noMethods
  | moreMethods hd _ ihd ihds => exact .moreMethods hd.name?_eq ihd ihds
  | exprStmt _ ih => exact fun hs Γ => (ih hs Γ).imp .exprStmt
  | print _ ih => exact fun hs Γ => (ih hs Γ).imp .print
  | bareVar hfresh =>
      intro hs Γ f k c c' hmirror hk herrors hvisits
      have htoken := hmirror.covers.declared hfresh
      obtain ⟨hnew, hafter⟩ := hmirror.declareAndDefine hfresh htoken.lexeme herrors
      exact ⟨.bareVar htoken hnew, hafter⟩
  | setVar hfresh _ ih => exact .setVar hfresh ih
  | block _ ih => exact .block ih
  | @ifThen _ _ _ a _ _ _ ihc iha =>
      intro hs Γ
      have hthen := iha hs.2.1 Γ
      rw [Layers.after_of_plain hs.2.2] at hthen
      refine ((ihc hs.1 Γ).both hthen a.walk_spec).imp ?_
      rintro ⟨hc, ha⟩
      exact .ifThen hc ha hs.2.2
  | @ifElse _ _ _ a _ b _ _ _ _ ihc iha ihb =>
      intro hs Γ
      obtain ⟨hsc, ⟨hsa, hplain⟩, hsb, hplain'⟩ := hs
      have hthen := iha hsa Γ
      have helse := ihb hsb Γ
      rw [Layers.after_of_plain hplain] at hthen
      rw [Layers.after_of_plain hplain'] at helse
      refine (((ihc hsc Γ).both hthen a.walk_spec).both helse b.walk_spec).imp ?_
      rintro ⟨⟨hc, ha⟩, hb⟩
      exact .ifElse hc ha hplain hb hplain'
  | @loop _ _ _ a _ _ _ ihc iha =>
      intro hs Γ
      have hbody := iha hs.2.1 Γ
      rw [Layers.after_of_plain hs.2.2] at hbody
      refine ((ihc hs.1 Γ).both hbody a.walk_spec).imp ?_
      rintro ⟨hc, ha⟩
      exact .loop hc ha hs.2.2
  | functionStmt hfresh hkept hd ih => exact .functionStmt hfresh hkept hd.name?_eq ih
  | bareRet => exact fun _ Γ => (follows_ret _ false).imp fun _ => .bareRet (.refl _)
  | @ret _ keyword e _ _ ih =>
      intro hs Γ
      refine ((follows_ret keyword true).both (ih hs Γ) e.walk_spec).imp ?_
      rintro ⟨-, he⟩
      exact .ret (.refl keyword) he
  | baseClass hfresh hkept _ ih => exact .baseClass hr hfresh hkept ih
  | derivedClass hfresh hkept hup _ ih => exact .derivedClass hr htable hfresh hkept hup ih
  | noStmts => exact fun _ Γ => Follows.stay .noStmts
  | @moreStmts _ s _ ss _ _ _ ihs ihss =>
      intro hs Γ
      have hadmits : ∀ k, Γ.Admits k → (Γ.after s).Admits k := by
        intro k hk
        unfold Layers.after
        split
        case h_1 heq => exact hk.mark (not_reserved_of_declared hs.1 heq) true
        case h_2 => exact hk
      refine ((ihs hs.1 Γ).seq (ihss hs.2 (Γ.after s)) (walkStmts_spec ss) (Layers.origins_after Γ s)
        hadmits).imp ?_
      rintro ⟨hs, hss⟩
      exact .moreStmts hs hss

end

end Scope

end LoxLang
