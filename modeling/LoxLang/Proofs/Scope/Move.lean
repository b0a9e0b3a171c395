import LoxLang.Proofs.Scope.Alike
import LoxLang.Proofs.Scope.Relabel
import LoxLang.Proofs.Syntax.Move

/-!
The static walk in another place. Walking a tree that has been moved, behind whatever has been found
before, finds what walking the tree finds, moved: the same scopes lead to the same distances and
errors. Trees that run alike do so when the second one is moved.
-/

namespace LoxLang

namespace Scope

section

variable (δ : Move)

def StaticError.moved (e : StaticError) : StaticError :=
  { e with token := e.token.moved δ }

/-- The distances of references that have been moved. -/
def movedDistances (table : Distances) : Distances :=
  table.map fun p => (p.1 + δ.shift, p.2)

def Visit.moved (v : Visit) : Visit :=
  ⟨v.ref.moved δ, v.scopes, v.origins.map (Origin.moved δ)⟩

variable (es : List StaticError) (ds : Distances)

/-- The context in another place, behind some errors and distances. -/
def Context.moved (c : Context) : Context :=
  { c with errors := es ++ c.errors.map (StaticError.moved δ)
           distances := movedDistances δ c.distances ++ ds }

end

variable {δ : Move}

theorem Context.moved_eq : Context.moved δ = Context.relabel δ.relabelling :=
  rfl

theorem Visit.moved_eq : Visit.moved δ = Visit.relabel δ.relabelling := by
  funext v
  rw [moved, Origin.moved_eq]
  rfl

end Scope

open Scope

section

variable {δ : Move} {es : List StaticError} {ds : Distances}

theorem Expr.walk_moved (e : Expr) (c : Context) :
    (e.moved δ).walk (c.moved δ es ds) = (e.walk c).moved δ es ds := by
  rw [e.moved_eq, Context.moved_eq, e.walk_relabel]

theorem walkStmts_moved (ss : List Stmt) (c : Context) :
    walkStmts (movedStmts δ ss) (c.moved δ es ds) = (walkStmts ss c).moved δ es ds := by
  rw [movedStmts_eq, Context.moved_eq, walkStmts_relabel]

theorem Expr.visits_moved (e : Expr) (c : Context) (os : List Origin) :
    (e.moved δ).visits (c.moved δ es ds) (os.map (Origin.moved δ)) =
      (e.visits c os).map (Visit.moved δ) := by
  rw [e.moved_eq, Context.moved_eq, Origin.moved_eq, Visit.moved_eq, e.visits_relabel]

theorem visitsStmts_moved (ss : List Stmt) (c : Context) (os : List Origin) :
    visitsStmts (movedStmts δ ss) (c.moved δ es ds) (os.map (Origin.moved δ)) =
      (visitsStmts ss c os).map (Visit.moved δ) := by
  rw [movedStmts_eq, Context.moved_eq, Origin.moved_eq, Visit.moved_eq, visitsStmts_relabel]

end

/-! ### Trees that run alike -/

namespace Scope

section

variable (K : Layers → Reference → Reference → Prop) (L : Nat → Nat → Prop) (δ : Move)

/-- The second reference of a pair has been moved. -/
def MovedPair (Γ : Layers) (ref ref' : Reference) : Prop :=
  ∃ ref₀, K Γ ref ref₀ ∧ ref' = ref₀.moved δ

/-- The second line of a pair has been moved. -/
def MovedLine (l l' : Nat) : Prop :=
  ∃ l₀, L l l₀ ∧ l' = l₀ + δ.lines

/-- The second tree of a pair is moved. -/
def Pair.moved : Pair → Pair
  | .expr e e' => .expr e (e'.moved δ)
  | .exprs es es' => .exprs es (movedExprs δ es')
  | .decl d d' => .decl d (d'.moved δ)
  | .methods ds ds' => .methods ds (movedMethods δ ds')
  | .stmt s s' => .stmt s (s'.moved δ)
  | .stmts ss ss' => .stmts ss (movedStmts δ ss')

end

variable {K : Layers → Reference → Reference → Prop} {L : Nat → Nat → Prop} {δ : Move}

theorem TokenTo.moved {lexeme : String} {t t' : Token} (h : TokenTo L lexeme t t') :
    TokenTo (MovedLine L δ) lexeme t (t'.moved δ) :=
  ⟨h.kind, h.lexeme, _, h.line, rfl⟩

/-- Trees that run alike still do when the second one is moved. -/
theorem Alike.moved {Γ : Layers} {p : Pair} (h : Alike K L Γ p) (δ : Move) :
    Alike (MovedPair K δ) (MovedLine L δ) Γ (p.moved δ) := by
  induction h with
  | literal => exact .literal
  | group _ ih => exact .group ih
  | unary ho _ ih => exact .unary ho.moved ih
  | binary _ ho _ ih ih' => exact .binary ih ho.moved ih'
  | logical _ ho _ ih ih' => exact .logical ih ho.moved ih'
  | ident href => exact .ident ⟨_, href, rfl⟩
  | assign href hthis hsuper _ ih => exact .assign ⟨_, href, rfl⟩ hthis hsuper ih
  | call _ hp _ ih ih' => exact .call ih hp.moved ih'
  | function _ ih => exact .function ih
  | get _ hn ih => exact .get ih hn.moved
  | set _ hn _ ih ih' => exact .set ih hn.moved ih'
  | this href hname hmethod => exact .this ⟨_, href, rfl⟩ hname hmethod
  | super href hname hm hderived => exact .super ⟨_, href, rfl⟩ hname hm.moved hderived
  | noExprs => exact .noExprs
  | moreExprs _ _ ih ih' => exact .moreExprs ih ih'
  | decl hname hline hparams _ ih =>
      refine .decl ?_ ⟨_, hline, rfl⟩ ?_ ih
      · cases hname with
        | none => exact .none
        | some hname => exact .some hname.moved
      · exact List.forall₂_map_right_iff.mpr (hparams.imp fun _ _ hp => hp.moved)
  | noMethods => exact .noMethods
  | moreMethods _ _ ih ih' => exact .moreMethods ih ih'
  | exprStmt _ ih => exact .exprStmt ih
  | print _ ih => exact .print ih
  | bareVar hn hfresh => exact .bareVar hn.moved hfresh
  | setVar hn hfresh _ ih => exact .setVar hn.moved hfresh ih
  | block _ ih => exact .block ih
  | ifThen _ _ hplain ih ih' => exact .ifThen ih ih' hplain
  | ifElse _ _ hplain _ hplain' ih ih' ih'' => exact .ifElse ih ih' hplain ih'' hplain'
  | loop _ _ hplain ih ih' => exact .loop ih ih' hplain
  | functionStmt hhere hfresh _ ih => exact .functionStmt hhere hfresh ih
  | bareRet hk => exact .bareRet hk.moved
  | ret hk _ ih => exact .ret hk.moved ih
  | baseClass hn hhere hfresh _ ih => exact .baseClass hn.moved hhere hfresh ih
  | derivedClass hn hhere hfresh hup hne _ ih =>
      exact .derivedClass hn.moved hhere hfresh ⟨_, hup, rfl⟩ hne ih
  | noStmts => exact .noStmts
  | moreStmts _ _ ih ih' => exact .moreStmts ih ih'

end Scope

end LoxLang
