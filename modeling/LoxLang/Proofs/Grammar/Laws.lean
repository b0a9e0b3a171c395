import LoxLang.Proofs.Grammar.Derivation
import LoxLang.Proofs.Scope.Law
import LoxLang.Proofs.Scope.Surroundings

/-!
Laws that the grammar keeps. The bodies of branches and loops are statements that declare nothing where
they stand, functions that are declared have names, and numbers are read from texts. So a derived tree
obeys every law that asks no more than this of its nodes.
-/

namespace LoxLang

open Scope

/-- A number is one that some text denotes. -/
def Expr.IsRead : Expr → Prop
  | .literal (.number x) => ∃ text, x = Decimal.read text
  | _ => True

/-- What is declared by walking a statement is the name that the statement itself declares. -/
def Stmt.DeclaresItself (s : Stmt) : Prop :=
  s.declares = s.declared?.toList

/-- A law about expressions with numbers that are read, and about statements whose parts declare nothing
where these stand. -/
structure Law.Grammatical (law : Law) : Prop where
  expr : ∀ e k, e.IsRead → law.node (.expr e) k
  stmt : ∀ s k, s.DeclaresItself → law.node (.stmt s) k
  function : ∀ d isInitializer, law.function d isInitializer

namespace Grammar

/-! ### Declarations -/

/-- What no phrase for a statement has: names that it declares. -/
def Phrase.Plain : Phrase → Prop
  | .exprStmt s => s.declares = []
  | .statement _ s => s.declares = []
  | _ => True

theorem declares_forLoop {init : Option Stmt} {condition : Expr} {increment : Option Expr}
    {body : Stmt} (hbody : body.declares = []) :
    (forLoop init condition increment body).declares = [] := by
  cases init with
  | some _ => rfl
  | none =>
      cases increment with
      | some _ => rfl
      | none => exact hbody

theorem Derives.plain {φ : Phrase} {s t : Input} (h : Derives φ s t) : φ.Plain := by
  induction h with
  | exprStmt | print | compound => rfl
  | @ret _ _ _ _ _ _ value => cases value <;> rfl
  | simple _ ih => exact ih
  | loop _ _ _ _ _ _ ih => exact ih
  | forLoop _ _ _ _ _ _ _ _ htree _ _ _ ih => exact forTree_iff.mp htree ▸ declares_forLoop ih
  | ifThen _ _ _ _ _ _ ih => exact ih
  | ifElse _ _ _ _ _ _ _ _ ih ih' => exact List.append_eq_nil_iff.mpr ⟨ih, ih'⟩
  | _ => trivial

/-! ### Trees -/

/-- A phrase obeys a law, in whatever class it may stand. -/
def Phrase.Obeys (law : Law) : Phrase → Prop
  | .expr _ e | .whole e => ∀ k, e.Obeys law k
  | .option e => ∀ e' ∈ e, ∀ k, e'.Obeys law k
  | .arguments es => ∀ k, ObeysExprs law k es
  | .parameters _ => True
  | .callable _ body | .block body => ∀ k, ObeysStmts law k body
  | .function d => (∃ name, d.name? = some name) ∧ ∀ k isInitializer, d.Obeys law k isInitializer
  | .functions ds => ∀ k, ObeysMethods law k ds
  | .forInit s => ∀ s' ∈ s, ∀ k, s'.Obeys law k
  | .variable s | .exprStmt s | .statement _ s | .declaration s => ∀ k, s.Obeys law k
  | .declarations ss | .program ss => ∀ k, ObeysStmts law k ss

section

variable {law : Law} (hlaw : law.Grammatical)

include hlaw

theorem Tier.obeys_join {tier : Tier} {operator : Token} {left right : Expr} {k : ClassKind}
    (hleft : left.Obeys law k) (hright : right.Obeys law k) :
    (tier.join left operator right).Obeys law k := by
  cases tier <;> exact ⟨hlaw.expr _ k trivial, hleft, hright⟩

theorem obeys_forLoop {init : Option Stmt} {condition : Expr} {increment : Option Expr}
    {body : Stmt} {k : ClassKind} (hinit : ∀ s ∈ init, s.Obeys law k)
    (hcondition : condition.Obeys law k) (hincrement : ∀ e ∈ increment, e.Obeys law k)
    (hbody : body.Obeys law k) (hplain : body.declares = []) :
    (forLoop init condition increment body).Obeys law k := by
  have hblock : ∀ inner : List Stmt, ObeysStmts law k inner → (Stmt.block inner).Obeys law k :=
    fun inner hinner => ⟨hlaw.stmt _ k rfl, hinner⟩
  have hloop : ∀ inner : Stmt, inner.declares = [] → inner.Obeys law k →
      (Stmt.loop condition inner).Obeys law k :=
    fun inner hnone hinner => ⟨hlaw.stmt _ k hnone, hcondition, hinner⟩
  unfold forLoop
  cases increment with
  | none =>
      cases init with
      | none => exact hloop body hplain hbody
      | some s => exact hblock _ ⟨hinit s rfl, hloop body hplain hbody, trivial⟩
  | some e =>
      have hstep : (Stmt.expr e).Obeys law k := ⟨hlaw.stmt _ k rfl, hincrement e rfl⟩
      have hrepeated := hloop (.block [body, .expr e]) rfl (hblock _ ⟨hbody, hstep, trivial⟩)
      cases init with
      | none => exact hrepeated
      | some s => exact hblock _ ⟨hinit s rfl, hrepeated, trivial⟩

/-- What the grammar derives obeys the laws that the grammar keeps. -/
theorem Derives.obeys {φ : Phrase} {s t : Input} (h : Derives φ s t) : φ.Obeys law := by
  have hexpr : ∀ e k, e.IsRead → law.node (.expr e) k := hlaw.expr
  have hstmt : ∀ s k, s.DeclaresItself → law.node (.stmt s) k := hlaw.stmt
  induction h with
  | tighter _ _ ih => exact ih
  | assignName _ _ _ ih => exact fun k => ⟨hexpr _ k trivial, ih k⟩
  | assignProperty _ _ _ _ _ ih ih' => exact fun k => ⟨hexpr _ k trivial, ih k, ih' k⟩
  | joined _ _ _ ih ih' => exact fun k => Tier.obeys_join hlaw (ih k) (ih' k)
  | unary _ _ ih => exact fun k => ⟨hexpr _ k trivial, ih k⟩
  | call _ _ _ _ _ ih ih' => exact fun k => ⟨hexpr _ k trivial, ih k, ih' k⟩
  | property _ _ _ ih => exact fun k => ⟨hexpr _ k trivial, ih k⟩
  | falseLiteral | trueLiteral | nilLiteral | textLiteral =>
      exact fun k => ⟨hexpr _ k trivial, trivial⟩
  | @numberLiteral _ _ t _ => exact fun k => ⟨hexpr _ k ⟨t.lexeme, rfl⟩, trivial⟩
  | this | ident | super => exact fun k => ⟨hexpr _ k trivial, trivial⟩
  | group _ _ _ ih => exact fun k => ⟨hexpr _ k trivial, ih k⟩
  | anonymous _ _ ih => exact fun k => ⟨hexpr _ k trivial, hlaw.function _ _, ih k⟩
  | missing => nofun
  | present _ ih =>
      rintro _ ⟨⟩
      exact ih
  | noArguments => exact fun _ => trivial
  | lastArgument _ ih => exact fun k => ⟨ih k, trivial⟩
  | moreArguments _ _ _ _ ih ih' => exact fun k => ⟨ih k, ih' k⟩
  | noParameters | lastParameter | moreParameters => trivial
  | callable _ _ _ _ _ _ ih => exact ih
  | function _ _ ih => exact ⟨⟨_, rfl⟩, fun k _ => ⟨hlaw.function _ _, ih k⟩⟩
  | noFunctions => exact fun _ => trivial
  | moreFunctions _ _ ih ih' => exact fun k => ⟨ih.2 k _, ih' k⟩
  | block _ _ _ ih => exact ih
  | bareVariable => exact fun k => ⟨hstmt _ k rfl, trivial⟩
  | setVariable _ _ _ _ _ ih => exact fun k => ⟨hstmt _ k rfl, ih k⟩
  | exprStmt _ _ ih => exact fun k => ⟨hstmt _ k rfl, ih k⟩
  | noInit => nofun
  | variableInit _ ih | exprInit _ ih =>
      rintro _ ⟨⟩
      exact ih
  | simple _ ih => exact ih
  | print _ _ _ ih => exact fun k => ⟨hstmt _ k rfl, ih k⟩
  | @ret _ _ _ _ _ _ value _ _ _ ih =>
      cases value with
      | none => exact fun k => ⟨hstmt _ k rfl, trivial⟩
      | some e => exact fun k => ⟨hstmt _ k rfl, ih e rfl k⟩
  | compound _ ih => exact fun k => ⟨hstmt _ k rfl, ih k⟩
  | loop _ _ _ _ hbody ih ih' => exact fun k => ⟨hstmt _ k hbody.plain, ih k, ih' k⟩
  | @forLoop _ _ _ _ _ _ _ _ _ _ _ _ _ _ condition _ _ _ _ _ _ _ _ _ _ _ hbody htree ihinit
      ihcondition ihincrement ihbody =>
      obtain rfl := forTree_iff.mp htree
      intro k
      have htest : (condition.getD (.literal (.bool true))).Obeys law k := by
        cases condition with
        | none => exact ⟨hexpr _ k trivial, trivial⟩
        | some e => exact ihcondition e rfl k
      exact obeys_forLoop hlaw (fun s hs => ihinit s hs k) htest (fun e he => ihincrement e he k)
        (ihbody k) hbody.plain
  | ifThen _ _ _ _ hthen ih ih' => exact fun k => ⟨hstmt _ k hthen.plain, ih k, ih' k⟩
  | ifElse _ _ _ _ hthen _ helse ih ih' ih'' =>
      have hnone := List.append_eq_nil_iff.mpr ⟨hthen.plain, helse.plain⟩
      exact fun k => ⟨hstmt _ k hnone, ih k, ih' k, ih'' k⟩
  | baseClass _ _ _ _ _ ih | derivedClass _ _ _ _ _ _ _ ih =>
      exact fun k => ⟨hstmt _ k rfl, ih _⟩
  | @functionDecl _ _ _ _ d _ _ ih =>
      obtain ⟨⟨name, hname⟩, hd⟩ := ih
      have hitself : (Stmt.function d).DeclaresItself := by
        simp [Stmt.DeclaresItself, Stmt.declares, Stmt.declared?, FunctionDecl.name, hname]
      exact fun k => ⟨hstmt _ k hitself, hd k false⟩
  | variableDecl _ ih => exact ih
  | statementDecl _ ih => exact ih
  | noDeclarations => exact fun _ => trivial
  | moreDeclarations _ _ ih ih' => exact fun k => ⟨ih k, ih' k⟩
  | program _ _ ih => exact ih
  | whole _ _ ih => exact ih

end

end Grammar

end LoxLang
