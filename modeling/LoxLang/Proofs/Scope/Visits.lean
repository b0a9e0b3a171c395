import Mathlib.Data.List.Nodup
import LoxLang.Proofs.Scope.Layer

/-!
The places where the static walk binds references. A visit is such a place: the reference, the scopes
that are open when the walk looks for its name, and what running the program opens the frames of these
scopes for. `visits` follows the walk, and `walk_spec` says that the distances that the walk enters are
those of its visits.
-/

namespace LoxLang

namespace Scope

structure Visit where
  ref : Reference
  scopes : List (Bindings Bool)
  /-- The frames that stand for the scopes, innermost first. -/
  origins : List Origin

namespace Visit

/-- The distance that the walk finds. -/
def distance? (v : Visit) : Option Nat :=
  v.scopes.findIdx? (·.contains v.ref.name.lexeme)

/-- What the walk enters into the table. -/
def entry? (v : Visit) : Option (Identity × Nat) :=
  v.distance?.map fun d => (v.ref.id, d)

/-- The walk found the name declared, but not ready. -/
def Early (v : Visit) : Prop :=
  ∃ d scope, v.distance? = some d ∧ v.scopes[d]? = some scope ∧
    scope.find? v.ref.name.lexeme = some false

end Visit

/-- Lists whose entries agree on a test, one by one, pass it first at the same place. -/
theorem findIdx?_of_forall₂ {α β : Type} {R : α → β → Prop} {p : α → Bool} {q : β → Bool}
    {as : List α} {bs : List β} (h : List.Forall₂ R as bs) (hpq : ∀ a b, R a b → p a = q b) :
    as.findIdx? p = bs.findIdx? q := by
  induction h with
  | nil => rfl
  | cons hfirst _ ih => rw [List.findIdx?_cons, List.findIdx?_cons, hpq _ _ hfirst, ih]

/-- The frames around the methods of a class. -/
def methodOrigins (superclass : Option Reference) (os : List Origin) : List Origin :=
  .receiver :: if superclass.isSome then .superclass :: os else os

end Scope

open Scope

mutual

def Expr.visits : Expr → Context → List Origin → List Visit
  | .literal _, _, _ => []
  | .group inner, c, os => inner.visits c os
  | .unary _ right, c, os => right.visits c os
  | .binary left _ right, c, os => left.visits c os ++ right.visits (left.walk c) os
  | .logical left _ right, c, os => left.visits c os ++ right.visits (left.walk c) os
  | .ident ref, c, os => [⟨ref, c.scopes, os⟩]
  | .assign ref value, c, os => value.visits c os ++ [⟨ref, (value.walk c).scopes, os⟩]
  | .call callee _ arguments, c, os =>
    callee.visits c os ++ visitsExprs arguments (callee.walk c) os
  | .function decl, c, os => decl.visits .function c os
  | .get object _, c, os => object.visits c os
  | .set object _ value, c, os => object.visits c os ++ value.visits (object.walk c) os
  | .this ref, c, os => if c.classKind = .none then [] else [⟨ref, c.scopes, os⟩]
  | .super ref _, c, os => [⟨ref, c.scopes, os⟩]

def visitsExprs : List Expr → Context → List Origin → List Visit
  | [], _, _ => []
  | e :: rest, c, os => e.visits c os ++ visitsExprs rest (e.walk c) os

def FunctionDecl.visits : FunctionDecl → FunctionKind → Context → List Origin → List Visit
  | .mk name line params body, kind, c, os =>
    visitsStmts body ({ c with functionKind := kind }.openScope.parameters params)
      (.call (.mk name line params body) :: os)

def Stmt.visits : Stmt → Context → List Origin → List Visit
  | .expr value, c, os => value.visits c os
  | .print value, c, os => value.visits c os
  | .var _ none, _, _ => []
  | .var name (some value), c, os => value.visits (c.declare name) os
  | .block body, c, os => visitsStmts body c.openScope (.block body :: os)
  | .branch condition thenBranch none, c, os =>
    condition.visits c os ++ thenBranch.visits (condition.walk c) os
  | .branch condition thenBranch (some elseBranch), c, os =>
    condition.visits c os ++ thenBranch.visits (condition.walk c) os ++
      elseBranch.visits (thenBranch.walk (condition.walk c)) os
  | .loop condition body, c, os => condition.visits c os ++ body.visits (condition.walk c) os
  | .function decl, c, os =>
    decl.visits .function
      (match decl.name? with
      | some name => c.declareAndDefine name
      | none => c) os
  | .ret _ none, _, _ => []
  | .ret keyword (some value), c, os => value.visits (c.useReturn keyword true) os
  | .classDecl name superclass methods, c, os =>
    (superclass.map fun ref => ⟨ref, (c.declareAndDefine name).scopes, os⟩).toList ++
      visitsMethods methods (c.enterClass name superclass) (methodOrigins superclass os)

def visitsStmts : List Stmt → Context → List Origin → List Visit
  | [], _, _ => []
  | s :: rest, c, os => s.visits c os ++ visitsStmts rest (s.walk c) os

def visitsMethods : List FunctionDecl → Context → List Origin → List Visit
  | [], _, _ => []
  | d :: rest, c, os => d.visits (methodKind d) c os ++ visitsMethods rest (d.walk (methodKind d) c) os

end

namespace Scope

/-- What walking a tree with the given visits adds to the findings. -/
structure Walked (vs : List Visit) (f f' : Findings) : Prop where
  errors : ∃ es, f'.errors = f.errors ++ es
  distances : f'.distances = (vs.filterMap Visit.entry?).reverse ++ f.distances

namespace Walked

variable {vs vs' : List Visit} {f f' f'' : Findings} {c : Context}
  {scopes : List (Bindings Bool)}

theorem refl (f : Findings) : Walked [] f f :=
  ⟨⟨[], by simp⟩, rfl⟩

theorem trans (h : Walked vs f f') (h' : Walked vs' f' f'') : Walked (vs ++ vs') f f'' := by
  obtain ⟨es, hes⟩ := h.errors
  obtain ⟨es', hes'⟩ := h'.errors
  constructor
  · exact ⟨es ++ es', by rw [hes', hes, List.append_assoc]⟩
  · rw [h'.distances, h.distances, List.filterMap_append, List.reverse_append, List.append_assoc]

/-- Without errors behind a walk there are none before it. -/
theorem errors_nil (h : Walked vs f f') (hf : f'.errors = []) : f.errors = [] := by
  obtain ⟨es, hes⟩ := h.errors
  exact (List.append_eq_nil_iff.mp (hes ▸ hf)).1

theorem report (token : Token) (cause : Cause) (c : Context) :
    Walked [] c.findings (c.report token cause).findings :=
  ⟨⟨_, rfl⟩, rfl⟩

theorem mark (name : String) (ready : Bool) (c : Context) :
    Walked [] c.findings (c.mark name ready).findings := by
  unfold Context.mark
  split
  · exact refl _
  · exact refl _

theorem declare (name : Token) (c : Context) :
    Walked [] c.findings (c.declare name).findings := by
  have hmark := mark name.lexeme false c
  unfold Context.declare
  dsimp only
  split
  · exact hmark.trans (report name .declaredTwice _)
  · exact hmark

theorem declareAndDefine (name : Token) (c : Context) :
    Walked [] c.findings (c.declareAndDefine name).findings :=
  (declare name c).trans (mark name.lexeme true _)

theorem parameters (params : List Token) (c : Context) :
    Walked [] c.findings (c.parameters params).findings := by
  unfold Context.parameters
  induction params generalizing c with
  | nil => exact refl _
  | cons p params ih => exact (declareAndDefine p c).trans (ih _)

theorem bind (ref : Reference) (hscopes : c.scopes = scopes) (os : List Origin) :
    Walked [⟨ref, scopes, os⟩] c.findings (c.bind ref).findings := by
  subst hscopes
  have hentry : Visit.entry? ⟨ref, c.scopes, os⟩ =
      (c.distance? ref.name.lexeme).map fun d => (ref.id, d) := rfl
  unfold Context.bind
  cases hdistance : c.distance? ref.name.lexeme with
  | none => exact ⟨⟨[], by simp⟩, by simp [hentry, hdistance]⟩
  | some d => exact ⟨⟨[], by simp [Context.findings]⟩, by simp [hentry, hdistance, Context.findings]⟩

theorem useIdent (ref : Reference) (hscopes : c.scopes = scopes) (os : List Origin) :
    Walked [⟨ref, scopes, os⟩] c.findings (c.useIdent ref).findings := by
  unfold Context.useIdent
  dsimp only
  split
  · have hbind := bind ref (c := c.report ref.name .readInInitializer) hscopes os
    exact (report ref.name .readInInitializer c).trans hbind
  · exact bind ref hscopes os

theorem useThis (ref : Reference) (c : Context) (os : List Origin) :
    Walked (if c.classKind = .none then [] else [⟨ref, c.scopes, os⟩]) c.findings
      (c.useThis ref).findings := by
  unfold Context.useThis
  split
  · exact report ref.name .thisOutside c
  · exact bind ref rfl os

theorem useSuper (ref : Reference) (c : Context) (os : List Origin) :
    Walked [⟨ref, c.scopes, os⟩] c.findings (c.useSuper ref).findings := by
  unfold Context.useSuper
  dsimp only
  split
  · have hbind := bind ref (c := c.report ref.name .superOutside) rfl os
    exact (report ref.name .superOutside c).trans hbind
  · have hbind := bind ref (c := c.report ref.name .superInBase) rfl os
    exact (report ref.name .superInBase c).trans hbind
  · exact bind ref rfl os

theorem useReturn (keyword : Token) (hasValue : Bool) (c : Context) :
    Walked [] c.findings (c.useReturn keyword hasValue).findings := by
  have key : ∀ c : Context, Walked [] c.findings
      (if hasValue = true ∧ c.functionKind = .initializer then c.report keyword .returnsValue
        else c).findings := by
    intro c
    split
    · exact report keyword .returnsValue c
    · exact refl _
  unfold Context.useReturn
  dsimp only
  split
  · exact (report keyword .returnOutside c).trans (key _)
  · exact key c

/-- The superclass is visited where the name of the class is declared already. -/
theorem enterClass (name : Token) (superclass : Option Reference) (c : Context)
    (os : List Origin) :
    Walked (superclass.map fun ref => ⟨ref, (c.declareAndDefine name).scopes, os⟩).toList c.findings
      (c.enterClass name superclass).findings := by
  have hname := declareAndDefine name { c with classKind := .base }
  have hthis : ∀ c : Context, Walked [] c.findings (c.openScope.mark "this" true).findings :=
    fun c => mark "this" true c.openScope
  cases superclass with
  | none => exact hname.trans (hthis _)
  | some ref =>
      have hscopes : (({ c with classKind := .base } : Context).declareAndDefine name).scopes =
          (c.declareAndDefine name).scopes := by
        rw [Context.scopes_declareAndDefine, Context.scopes_declareAndDefine]
      have hsuper : ∀ c : Context, Walked [] c.findings (c.openScope.mark "super" true).findings :=
        fun c => mark "super" true c.openScope
      have key : ∀ {c₀ c₁ : Context}, Walked [] c.findings c₁.findings → c₁.scopes = c₀.scopes →
          Walked [⟨ref, c₀.scopes, os⟩] c.findings
            (({ c₁ with classKind := .derived } : Context).useIdent ref).findings := by
        intro c₀ c₁ h hc₁
        exact h.trans (useIdent ref (c := { c₁ with classKind := .derived }) hc₁ os)
      unfold Context.enterClass
      dsimp only
      split
      · exact ((key (hname.trans (report ref.name .inheritsItself _)) hscopes).trans
          (hsuper _)).trans (hthis _)
      · exact ((key hname hscopes).trans (hsuper _)).trans (hthis _)

end Walked

end Scope

mutual

theorem Expr.walk_spec : ∀ (e : Expr) (c : Context) (os : List Origin),
    Walked (e.visits c os) c.findings (e.walk c).findings
  | .literal _, _, _ => .refl _
  | .group inner, c, os => inner.walk_spec c os
  | .unary _ right, c, os => right.walk_spec c os
  | .binary left _ right, c, os => (left.walk_spec c os).trans (right.walk_spec _ os)
  | .logical left _ right, c, os => (left.walk_spec c os).trans (right.walk_spec _ os)
  | .ident ref, _, os => .useIdent ref rfl os
  | .assign ref value, c, os => (value.walk_spec c os).trans (.bind ref rfl os)
  | .call callee _ arguments, c, os =>
    (callee.walk_spec c os).trans (walkExprs_spec arguments _ os)
  | .function decl, c, os => decl.walk_spec .function c os
  | .get object _, c, os => object.walk_spec c os
  | .set object _ value, c, os => (object.walk_spec c os).trans (value.walk_spec _ os)
  | .this ref, c, os => .useThis ref c os
  | .super ref _, c, os => .useSuper ref c os

theorem walkExprs_spec : ∀ (es : List Expr) (c : Context) (os : List Origin),
    Walked (visitsExprs es c os) c.findings (walkExprs es c).findings
  | [], _, _ => .refl _
  | e :: rest, c, os => (e.walk_spec c os).trans (walkExprs_spec rest _ os)

theorem FunctionDecl.walk_spec : ∀ (d : FunctionDecl) (kind : FunctionKind) (c : Context)
    (os : List Origin), Walked (d.visits kind c os) c.findings (d.walk kind c).findings
  | .mk name line params body, kind, c, os => by
    have hparams := Walked.parameters params { c with functionKind := kind }.openScope
    exact hparams.trans (walkStmts_spec body _ (.call (.mk name line params body) :: os))

theorem Stmt.walk_spec : ∀ (s : Stmt) (c : Context) (os : List Origin),
    Walked (s.visits c os) c.findings (s.walk c).findings
  | .expr value, c, os => value.walk_spec c os
  | .print value, c, os => value.walk_spec c os
  | .var name none, c, _ => .declareAndDefine name c
  | .var name (some value), c, os => by
    have hvalue := (Walked.declare name c).trans (value.walk_spec (c.declare name) os)
    have hdefine := hvalue.trans (.mark name.lexeme true _)
    rwa [List.append_nil] at hdefine
  | .block body, c, os => walkStmts_spec body c.openScope (.block body :: os)
  | .branch condition thenBranch none, c, os =>
    (condition.walk_spec c os).trans (thenBranch.walk_spec _ os)
  | .branch condition thenBranch (some elseBranch), c, os =>
    ((condition.walk_spec c os).trans (thenBranch.walk_spec _ os)).trans (elseBranch.walk_spec _ os)
  | .loop condition body, c, os => (condition.walk_spec c os).trans (body.walk_spec _ os)
  | .function decl, c, os => by
    have hname : Walked [] c.findings
        (match decl.name? with
          | some name => c.declareAndDefine name
          | none => c).findings := by
      split
      · exact .declareAndDefine _ c
      · exact .refl _
    exact hname.trans (decl.walk_spec .function _ os)
  | .ret keyword none, c, _ => .useReturn keyword false c
  | .ret keyword (some value), c, os =>
    (Walked.useReturn keyword true c).trans (value.walk_spec _ os)
  | .classDecl name superclass methods, c, os => by
    have hinside := (Walked.enterClass name superclass c os).trans
      (walkMethods_spec methods _ (methodOrigins superclass os))
    cases superclass <;> exact hinside

theorem walkStmts_spec : ∀ (ss : List Stmt) (c : Context) (os : List Origin),
    Walked (visitsStmts ss c os) c.findings (walkStmts ss c).findings
  | [], _, _ => .refl _
  | s :: rest, c, os => (s.walk_spec c os).trans (walkStmts_spec rest _ os)

theorem walkMethods_spec : ∀ (ds : List FunctionDecl) (c : Context) (os : List Origin),
    Walked (visitsMethods ds c os) c.findings (walkMethods ds c).findings
  | [], _, _ => .refl _
  | d :: rest, c, os => (d.walk_spec (methodKind d) c os).trans (walkMethods_spec rest _ os)

end

/-! ### Entries -/

theorem lookup_of_not_mem {table : Distances} {id : Identity} (h : ∀ p ∈ table, p.1 ≠ id) :
    table.lookup id = none := by
  rw [List.lookup_eq_none_iff]
  intro p hp
  have hne := h p hp
  simp [hne.symm]

theorem lookup_of_unique {table : Distances} {id : Identity} {d : Nat} (hmem : (id, d) ∈ table)
    (hunique : ∀ p ∈ table, p.1 = id → p.2 = d) : table.lookup id = some d := by
  induction table with
  | nil => cases hmem
  | cons p table ih =>
      obtain ⟨id', d'⟩ := p
      by_cases hid : id' = id
      · obtain rfl := hunique _ (List.mem_cons_self ..) hid
        rw [← hid, List.lookup_cons_self]
      · have hmem' : (id, d) ∈ table := by
          rcases List.mem_cons.mp hmem with heq | hmem
          · cases heq
            exact absurd rfl hid
          · exact hmem
        have hne : (id == id') = false := beq_eq_false_iff_ne.mpr (Ne.symm hid)
        rw [List.lookup_cons, hne]
        exact ih hmem' fun q hq => hunique q (List.mem_cons_of_mem _ hq)

/-- In the entries of things with identities of their own, every thing has its entry. -/
theorem lookup_filterMap {α : Type} {f : α → Identity} {g : α → Option Nat} {l : List α}
    (hdistinct : (l.map f).Nodup) :
    ∀ a ∈ l, (l.filterMap fun a => (g a).map fun d => (f a, d)).reverse.lookup (f a) =
      g a := by
  intro a ha
  have hentry : ∀ p ∈ (l.filterMap fun a => (g a).map fun d => (f a, d)).reverse,
      p.1 = f a → g a = some p.2 := by
    intro p hp hid
    obtain ⟨b, hb, hp⟩ := List.mem_filterMap.mp (List.mem_reverse.mp hp)
    obtain ⟨d, hd, rfl⟩ := Option.map_eq_some_iff.mp hp
    obtain rfl := List.inj_on_of_nodup_map hdistinct hb ha hid
    exact hd
  cases hdistance : g a with
  | none =>
      apply lookup_of_not_mem
      intro p hp hid
      cases hdistance.symm.trans (hentry p hp hid)
  | some d =>
      apply lookup_of_unique
      · apply List.mem_reverse.mpr
        exact List.mem_filterMap.mpr ⟨a, ha, by rw [hdistance]; rfl⟩
      · intro p hp hid
        exact Option.some.inj ((hentry p hp hid).symm.trans hdistance)

theorem lookup_entries {vs : List Visit} (hdistinct : (vs.map fun v => v.ref.id).Nodup) :
    ∀ v ∈ vs, (vs.filterMap Visit.entry?).reverse.lookup v.ref.id = v.distance? :=
  lookup_filterMap (f := fun v : Visit => v.ref.id) hdistinct

end LoxLang
