import LoxLang.Proofs.Grammar.Lookahead
import LoxLang.Proofs.Grammar.References
import LoxLang.Proofs.Scope.Resolution

/-!
What derived trees are like. Their names are spelled as the scanner spells names, and the identities of
their references count up: no two references of a tree have the same.
-/

namespace LoxLang.Grammar

open Scope

/-- What is left behind a phrase was there before it. -/
theorem Derives.mem_of_mem {φ : Phrase} {s t : Input} (h : Derives φ s t) :
    ∀ u ∈ t.tokens, u ∈ s.tokens := by
  induction h with
  | program | whole => exact fun u hu => nomatch hu
  | _ => grind

/-! ### Names -/

/-- The words that stand for the scopes of classes are kinds of their own. -/
structure Genuine (t : Token) : Prop where
  identifier : t.kind = .identifier → ¬Reserved t.lexeme
  this : t.kind = .kwThis → t.lexeme = "this"
  super : t.kind = .kwSuper → t.lexeme = "super"

/-- How a phrase is spelled. -/
def Phrase.Spelled : Phrase → Prop
  | .expr _ e => e.Spelled
  | .option none => True
  | .option (some e) => e.Spelled
  | .arguments es => SpelledExprs es
  | .parameters params => ∀ p ∈ params, ¬Reserved p.lexeme
  | .callable params body => (∀ p ∈ params, ¬Reserved p.lexeme) ∧ SpelledStmts body
  | .function d => (∃ name, d.name? = some name) ∧ ¬Reserved d.name ∧ d.Spelled
  | .functions ds => SpelledMethods ds
  | .block body => SpelledStmts body
  | .variable s => s.Spelled
  | .exprStmt s => s.Spelled ∧ s.declared? = none
  | .forInit none => True
  | .forInit (some s) => s.Spelled
  | .statement _ s => s.Spelled ∧ s.declared? = none
  | .declaration s => s.Spelled
  | .declarations ss => SpelledStmts ss
  | .program ss => SpelledStmts ss
  | .whole e => e.Spelled

theorem spelled_join {tier : Tier} {operator : Token} {left right : Expr} (hleft : left.Spelled)
    (hright : right.Spelled) : (tier.join left operator right).Spelled := by
  cases tier <;> exact ⟨hleft, hright⟩

theorem spelled_forLoop {init : Option Stmt} {condition : Expr} {increment : Option Expr}
    {body : Stmt} (hinit : (Phrase.forInit init).Spelled) (hcondition : condition.Spelled)
    (hincrement : (Phrase.option increment).Spelled)
    (hbody : body.Spelled ∧ body.declared? = none) :
    (forLoop init condition increment body).Spelled ∧
      (forLoop init condition increment body).declared? = none := by
  unfold forLoop
  cases increment with
  | none =>
      cases init with
      | none => exact ⟨⟨hcondition, hbody⟩, rfl⟩
      | some s => exact ⟨⟨hinit, ⟨hcondition, hbody⟩, trivial⟩, rfl⟩
  | some e =>
      have hrepeated : (Stmt.block [body, .expr e]).Spelled := ⟨hbody.1, hincrement, trivial⟩
      cases init with
      | none => exact ⟨⟨hcondition, hrepeated, rfl⟩, rfl⟩
      | some s => exact ⟨⟨hinit, ⟨hcondition, hrepeated, rfl⟩, trivial⟩, rfl⟩

theorem Derives.spelled {φ : Phrase} {s t : Input} (h : Derives φ s t)
    (hs : ∀ u ∈ s.tokens, Genuine u) : φ.Spelled := by
  induction h with
  | tighter _ _ ih => exact ih hs
  | assignName hname _ _ ih =>
      refine ⟨(hs _ (List.mem_cons_self ..)).identifier hname, ih fun u hu => hs u ?_⟩
      exact List.mem_cons_of_mem _ (List.mem_cons_of_mem _ hu)
  | assignProperty hobject _ _ _ _ ih ih' =>
      refine ⟨ih hs, ih' fun u hu => hs u (hobject.mem_of_mem u ?_)⟩
      exact List.mem_cons_of_mem _ (List.mem_cons_of_mem _ (List.mem_cons_of_mem _ hu))
  | joined hleft _ _ ih ih' =>
      refine spelled_join (ih hs) (ih' fun u hu => hs u (hleft.mem_of_mem u ?_))
      exact List.mem_cons_of_mem _ hu
  | unary _ _ ih => exact ih fun u hu => hs u (List.mem_cons_of_mem _ hu)
  | call hcallee _ _ _ _ ih ih' =>
      refine ⟨ih hs, ih' fun u hu => hs u (hcallee.mem_of_mem u ?_)⟩
      exact List.mem_cons_of_mem _ hu
  | property _ _ _ ih => exact ih hs
  | falseLiteral | trueLiteral | nilLiteral | numberLiteral | textLiteral => trivial
  | this ht => exact (hs _ (List.mem_cons_self ..)).this ht
  | ident => trivial
  | super hkeyword _ _ => exact (hs _ (List.mem_cons_self ..)).super hkeyword
  | group _ _ _ ih => exact ih fun u hu => hs u (List.mem_cons_of_mem _ hu)
  | anonymous _ _ ih => exact ih fun u hu => hs u (List.mem_cons_of_mem _ hu)
  | missing => trivial
  | present _ ih => exact ih hs
  | noArguments => trivial
  | lastArgument _ ih => exact ⟨ih hs, trivial⟩
  | moreArguments he _ _ _ ih ih' =>
      refine ⟨ih hs, ih' fun u hu => hs u (he.mem_of_mem u ?_)⟩
      exact List.mem_cons_of_mem _ hu
  | noParameters => exact nofun
  | lastParameter hname =>
      intro p hp
      rw [List.mem_singleton.mp hp]
      exact (hs _ (List.mem_cons_self ..)).identifier hname
  | moreParameters hname _ _ _ ih =>
      intro p hp
      rcases List.mem_cons.mp hp with rfl | hp
      · exact (hs _ (List.mem_cons_self ..)).identifier hname
      · refine ih (fun u hu => hs u ?_) p hp
        exact List.mem_cons_of_mem _ (List.mem_cons_of_mem _ hu)
  | callable _ hparams _ _ _ ih ih' =>
      constructor
      · exact ih fun u hu => hs u (List.mem_cons_of_mem _ hu)
      · refine ih' fun u hu => hs u (List.mem_cons_of_mem _ (hparams.mem_of_mem u ?_))
        exact List.mem_cons_of_mem _ hu
  | @function _ _ _ name _ _ hname _ ih =>
      refine ⟨⟨name, rfl⟩, (hs _ (List.mem_cons_self ..)).identifier hname, ?_⟩
      exact ih fun u hu => hs u (List.mem_cons_of_mem _ hu)
  | noFunctions => trivial
  | moreFunctions hd _ ih ih' =>
      exact ⟨(ih hs).2.2, ih' fun u hu => hs u (hd.mem_of_mem u hu)⟩
  | block _ _ _ ih => exact ih fun u hu => hs u (List.mem_cons_of_mem _ hu)
  | bareVariable _ hname _ =>
      exact (hs _ (List.mem_cons_of_mem _ (List.mem_cons_self ..))).identifier hname
  | setVariable _ hname _ _ _ ih =>
      refine ⟨(hs _ (List.mem_cons_of_mem _ (List.mem_cons_self ..))).identifier hname, ?_⟩
      exact ih fun u hu =>
        hs u (List.mem_cons_of_mem _ (List.mem_cons_of_mem _ (List.mem_cons_of_mem _ hu)))
  | exprStmt _ _ ih => exact ⟨ih hs, rfl⟩
  | noInit => trivial
  | variableInit _ ih => exact ih hs
  | exprInit _ ih => exact (ih hs).1
  | simple _ ih => exact ih hs
  | print _ _ _ ih => exact ⟨ih fun u hu => hs u (List.mem_cons_of_mem _ hu), rfl⟩
  | @ret _ _ _ _ _ _ value _ _ _ ih =>
      have hvalue := ih fun u hu => hs u (List.mem_cons_of_mem _ hu)
      cases value with
      | none => exact ⟨trivial, rfl⟩
      | some e => exact ⟨hvalue, rfl⟩
  | compound _ ih => exact ⟨ih hs, rfl⟩
  | loop _ _ hcondition _ _ ih ih' =>
      refine ⟨⟨ih fun u hu => hs u ?_, ih' fun u hu => hs u ?_⟩, rfl⟩
      · exact List.mem_cons_of_mem _ (List.mem_cons_of_mem _ hu)
      · exact List.mem_cons_of_mem _ (List.mem_cons_of_mem _
          (hcondition.mem_of_mem u (List.mem_cons_of_mem _ hu)))
  | @forLoop _ _ _ _ _ _ _ _ _ _ _ _ _ init condition _ _ _ _ _ _ hinit hcondition _ hincrement _ _
      htree ihinit ihcondition ihincrement ihbody =>
      obtain rfl := forTree_iff.mp htree
      have hts : ∀ u ∈ _, Genuine u := fun u hu =>
        hs u (List.mem_cons_of_mem _ (List.mem_cons_of_mem _ hu))
      have hus : ∀ u ∈ _, Genuine u := fun u hu => hts u (hinit.mem_of_mem u hu)
      have hvs : ∀ u ∈ _, Genuine u := fun u hu =>
        hus u (hcondition.mem_of_mem u (List.mem_cons_of_mem _ hu))
      have hws : ∀ u ∈ _, Genuine u := fun u hu =>
        hvs u (hincrement.mem_of_mem u (List.mem_cons_of_mem _ hu))
      have htest : (condition.getD (.literal (.bool true))).Spelled := by
        have hspelled := ihcondition hus
        cases condition with
        | none => trivial
        | some e => exact hspelled
      exact spelled_forLoop (ihinit hts) htest (ihincrement hvs) (ihbody hws)
  | ifThen _ _ hcondition _ _ ih ih' =>
      refine ⟨⟨ih fun u hu => hs u ?_, ih' fun u hu => hs u ?_⟩, rfl⟩
      · exact List.mem_cons_of_mem _ (List.mem_cons_of_mem _ hu)
      · exact List.mem_cons_of_mem _ (List.mem_cons_of_mem _
          (hcondition.mem_of_mem u (List.mem_cons_of_mem _ hu)))
  | ifElse _ _ hcondition _ hthen _ _ ih ih' ih'' =>
      have hts : ∀ u ∈ _, Genuine u := fun u hu =>
        hs u (List.mem_cons_of_mem _ (List.mem_cons_of_mem _ hu))
      have hus : ∀ u ∈ _, Genuine u := fun u hu =>
        hts u (hcondition.mem_of_mem u (List.mem_cons_of_mem _ hu))
      have hvs : ∀ u ∈ _, Genuine u := fun u hu =>
        hus u (hthen.mem_of_mem u (List.mem_cons_of_mem _ hu))
      exact ⟨⟨ih hts, ih' hus, ih'' hvs⟩, rfl⟩
  | baseClass _ hname _ _ _ ih =>
      refine ⟨(hs _ (List.mem_cons_of_mem _ (List.mem_cons_self ..))).identifier hname, ?_⟩
      exact ih fun u hu =>
        hs u (List.mem_cons_of_mem _ (List.mem_cons_of_mem _ (List.mem_cons_of_mem _ hu)))
  | derivedClass _ hname _ _ _ _ _ ih =>
      refine ⟨(hs _ (List.mem_cons_of_mem _ (List.mem_cons_self ..))).identifier hname, ?_⟩
      exact ih fun u hu => hs u (by simp [hu])
  | functionDecl _ _ ih => exact ih fun u hu => hs u (List.mem_cons_of_mem _ hu)
  | variableDecl _ ih => exact ih hs
  | statementDecl _ ih => exact (ih hs).1
  | noDeclarations => trivial
  | moreDeclarations ha _ ih ih' =>
      exact ⟨ih hs, ih' fun u hu => hs u (ha.mem_of_mem u hu)⟩
  | program _ _ ih => exact ih fun u hu => hs u (List.mem_append_left _ hu)
  | whole _ _ ih => exact ih fun u hu => hs u (List.mem_append_left _ hu)

/-! ### Identities -/

/-- There are identities left for all the tokens of an input. -/
def Input.Fits (s : Input) : Prop :=
  s.nextId.toNat + s.tokens.length < UInt64.size

/-- A phrase takes a token at least for every identity that it uses. -/
theorem Derives.grows {φ : Phrase} {s t : Input} (h : Derives φ s t) (hs : s.Fits) :
    s.nextId ≤ t.nextId := by
  have hmodulus : UInt64.size = 2 ^ 64 := rfl
  have hcount := h.identities_le
  rw [Input.Fits] at hs
  rw [h.identities, UInt64.le_iff_toNat_le, UInt64.toNat_add, UInt64.toNat_ofNat_of_lt' (by omega)]
  omega

/-- Visits of references with identities of their own, from one number up to another. -/
structure Numbered (low high : Nat) (vs : List Visit) : Prop where
  range : ∀ v ∈ vs, low ≤ v.ref.id.toNat ∧ v.ref.id.toNat < high
  distinct : (vs.map fun v => v.ref.id).Nodup

/-- Visits of references that are in their range and no two the same. -/
theorem Numbered.of_references {i j : Identity} {refs : List Reference} {vs : List Visit}
    (hbetween : ∀ ref ∈ refs, i ≤ ref.id ∧ ref.id < j) (hdistinct : (refs.map Reference.id).Nodup)
    (hvs : (vs.map Visit.ref).Sublist refs) : Numbered i.toNat j.toNat vs := by
  constructor
  · intro v hv
    obtain ⟨hlow, hhigh⟩ := hbetween v.ref (hvs.subset (List.mem_map_of_mem hv))
    exact ⟨UInt64.le_iff_toNat_le.mp hlow, UInt64.lt_iff_toNat_lt.mp hhigh⟩
  · have hsublist := hdistinct.sublist (hvs.map Reference.id)
    rwa [List.map_map] at hsublist

/-- Walking a phrase visits references with identities of its own, wherever it stands. -/
def Phrase.Numbered (low high : Nat) : Phrase → Prop
  | .expr _ e => ∀ c os, Grammar.Numbered low high (e.visits c os)
  | .option e => ∀ e' ∈ e, ∀ c os, Grammar.Numbered low high (e'.visits c os)
  | .arguments es => ∀ c os, Grammar.Numbered low high (visitsExprs es c os)
  | .parameters _ => True
  | .callable _ body => ∀ c os, Grammar.Numbered low high (visitsStmts body c os)
  | .function d => ∀ kind c os, Grammar.Numbered low high (d.visits kind c os)
  | .functions ds => ∀ c os, Grammar.Numbered low high (visitsMethods ds c os)
  | .block body => ∀ c os, Grammar.Numbered low high (visitsStmts body c os)
  | .variable s => ∀ c os, Grammar.Numbered low high (s.visits c os)
  | .exprStmt s => ∀ c os, Grammar.Numbered low high (s.visits c os)
  | .forInit s => ∀ s' ∈ s, ∀ c os, Grammar.Numbered low high (s'.visits c os)
  | .statement _ s => ∀ c os, Grammar.Numbered low high (s.visits c os)
  | .declaration s => ∀ c os, Grammar.Numbered low high (s.visits c os)
  | .declarations ss => ∀ c os, Grammar.Numbered low high (visitsStmts ss c os)
  | .program ss => ∀ c os, Grammar.Numbered low high (visitsStmts ss c os)
  | .whole e => ∀ c os, Grammar.Numbered low high (e.visits c os)

/-- A phrase has identities of its own, if there are any left for it and counting does not start again
at zero. -/
theorem Derives.numbered {φ : Phrase} {s t : Input} (h : Derives φ s t)
    (hlength : s.tokens.length < UInt64.size) (hgrows : s.nextId ≤ t.nextId) :
    φ.Numbered s.nextId.toNat t.nextId.toNat := by
  have hcount := h.identities_le
  have hbetween := h.counted.between h.identities (by omega) hgrows
  have hdistinct := h.counted.distinct (by omega)
  have key : ∀ vs : List Visit, (vs.map Visit.ref).Sublist φ.references →
      Grammar.Numbered s.nextId.toNat t.nextId.toNat vs :=
    fun _ => .of_references hbetween hdistinct
  cases φ with
  | expr _ e | whole e => exact fun c os => key _ (e.visits_sublist c os)
  | option e | forInit e =>
      rintro e' ⟨rfl⟩ c os
      exact key _ (e'.visits_sublist c os)
  | arguments es => exact fun c os => key _ (visitsExprs_sublist es c os)
  | parameters => trivial
  | callable _ body | block body => exact fun c os => key _ (visitsStmts_sublist body c os)
  | function d => exact fun kind c os => key _ (d.visits_sublist kind c os)
  | functions ds => exact fun c os => key _ (visitsMethods_sublist ds c os)
  | «variable» a | exprStmt a | statement _ a | declaration a =>
      exact fun c os => key _ (a.visits_sublist c os)
  | declarations ss | program ss => exact fun c os => key _ (visitsStmts_sublist ss c os)

end LoxLang.Grammar
