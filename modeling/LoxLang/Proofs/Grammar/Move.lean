import LoxLang.Proofs.Grammar.Acceptance
import LoxLang.Proofs.Grammar.Relabel
import LoxLang.Proofs.Syntax.Move

/-!
Derivations in another place. What is derived of all the tokens of an input is derived wherever the
tokens stand and from whatever identity the references are counted, since reading them is; and what
is derived of some tokens is derived with whatever tokens behind.
-/

namespace LoxLang.Grammar

/-! ### Other lines and identities -/

section

variable {tokens : List Token} {i j : Identity}

theorem Derives.declarations_moved {ss : List Stmt}
    (h : Derives (.declarations ss) ⟨beforeEnd tokens, i⟩ ⟨[], j⟩) (δ : Move) :
    Derives (.declarations (movedStmts δ ss))
      ⟨(beforeEnd tokens).map (Token.moved δ), i + δ.shift⟩ ⟨[], j + δ.shift⟩ := by
  rw [Token.moved_eq, ← beforeEnd_relabel, ← parseProgram_iff_derives, movedStmts_eq]
  have hread : parseProgram (tokens.map (Token.relabel δ.relabelling)) (i + δ.shift) = _ :=
    parseProgram_relabel tokens i
  rw [parseProgram_iff_derives.mpr h] at hread
  exact hread

theorem Derives.expression_moved {e : Expr}
    (h : Derives (.expr .assignment e) ⟨beforeEnd tokens, i⟩ ⟨[], j⟩) (δ : Move) :
    Derives (.expr .assignment (e.moved δ))
      ⟨(beforeEnd tokens).map (Token.moved δ), i + δ.shift⟩ ⟨[], j + δ.shift⟩ := by
  rw [Token.moved_eq, ← beforeEnd_relabel, ← parseExpression_iff_derives, Expr.moved_eq]
  have hread : parseExpression (tokens.map (Token.relabel δ.relabelling)) (i + δ.shift) = _ :=
    parseExpression_relabel tokens i
  rw [parseExpression_iff_derives.mpr h] at hread
  exact hread

end

/-! ### Tokens behind -/

/-- The phrases that are parts of others: all but those that end an input. -/
def Phrase.IsPart : Phrase → Prop
  | .program _ => False
  | .whole _ => False
  | _ => True

/-- What is derived is derived with more tokens behind. -/
theorem Derives.framed {φ : Phrase} {s t : Input} (h : Derives φ s t) (hφ : φ.IsPart)
    (us : List Token) : Derives φ ⟨s.tokens ++ us, s.nextId⟩ ⟨t.tokens ++ us, t.nextId⟩ := by
  induction h with
  | tighter hprimary _ ih => exact .tighter hprimary (ih trivial)
  | assignName hname hequals _ ih => exact .assignName hname hequals (ih trivial)
  | assignProperty _ hdot hname hequals _ ih ih' =>
      exact .assignProperty (ih trivial) hdot hname hequals (ih' trivial)
  | joined _ hoperator _ ih ih' => exact .joined (ih trivial) hoperator (ih' trivial)
  | unary hoperator _ ih => exact .unary hoperator (ih trivial)
  | call _ hopening _ hlength hclosing ih ih' =>
      exact .call (ih trivial) hopening (ih' trivial) hlength hclosing
  | property _ hdot hname ih => exact .property (ih trivial) hdot hname
  | falseLiteral ht => exact .falseLiteral ht
  | trueLiteral ht => exact .trueLiteral ht
  | nilLiteral ht => exact .nilLiteral ht
  | numberLiteral ht => exact .numberLiteral ht
  | textLiteral ht => exact .textLiteral ht
  | this ht => exact .this ht
  | ident ht => exact .ident ht
  | super hkeyword hdot hmethod => exact .super hkeyword hdot hmethod
  | group hopening _ hclosing ih => exact .group hopening (ih trivial) hclosing
  | anonymous hkeyword _ ih => exact .anonymous hkeyword (ih trivial)
  | missing => exact .missing
  | present _ ih => exact .present (ih trivial)
  | noArguments => exact .noArguments
  | lastArgument _ ih => exact .lastArgument (ih trivial)
  | moreArguments _ hcomma _ hmore ih ih' =>
      exact .moreArguments (ih trivial) hcomma (ih' trivial) hmore
  | noParameters => exact .noParameters
  | lastParameter hname => exact .lastParameter hname
  | moreParameters hname hcomma _ hmore ih => exact .moreParameters hname hcomma (ih trivial) hmore
  | callable hopening _ hlength hclosing _ ih ih' =>
      exact .callable hopening (ih trivial) hlength hclosing (ih' trivial)
  | function hname _ ih => exact .function hname (ih trivial)
  | noFunctions => exact .noFunctions
  | moreFunctions _ _ ih ih' => exact .moreFunctions (ih trivial) (ih' trivial)
  | block hopening _ hclosing ih => exact .block hopening (ih trivial) hclosing
  | bareVariable hkeyword hname hsemicolon => exact .bareVariable hkeyword hname hsemicolon
  | setVariable hkeyword hname hequals _ hsemicolon ih =>
      exact .setVariable hkeyword hname hequals (ih trivial) hsemicolon
  | exprStmt _ hsemicolon ih => exact .exprStmt (ih trivial) hsemicolon
  | noInit hsemicolon => exact .noInit hsemicolon
  | variableInit _ ih => exact .variableInit (ih trivial)
  | exprInit _ ih => exact .exprInit (ih trivial)
  | simple _ ih => exact .simple (ih trivial)
  | print hkeyword _ hsemicolon ih => exact .print hkeyword (ih trivial) hsemicolon
  | ret hkeyword _ hsemicolon ih => exact .ret hkeyword (ih trivial) hsemicolon
  | compound _ ih => exact .compound (ih trivial)
  | loop hkeyword hopening _ hclosing _ ih ih' =>
      exact .loop hkeyword hopening (ih trivial) hclosing (ih' trivial)
  | forLoop hkeyword hopening _ _ hsemicolon _ hclosing _ htree ih ih' ih'' ihbody =>
      exact .forLoop hkeyword hopening (ih trivial) (ih' trivial) hsemicolon (ih'' trivial) hclosing
        (ihbody trivial) htree
  | ifThen hkeyword hopening _ hclosing _ ih ih' =>
      exact .ifThen hkeyword hopening (ih trivial) hclosing (ih' trivial)
  | ifElse hkeyword hopening _ hclosing _ hotherwise _ ih ih' ih'' =>
      exact .ifElse hkeyword hopening (ih trivial) hclosing (ih' trivial) hotherwise (ih'' trivial)
  | baseClass hkeyword hname hopening _ hclosing ih =>
      exact .baseClass hkeyword hname hopening (ih trivial) hclosing
  | derivedClass hkeyword hname hless hparent hopening _ hclosing ih =>
      exact .derivedClass hkeyword hname hless hparent hopening (ih trivial) hclosing
  | functionDecl hkeyword _ ih => exact .functionDecl hkeyword (ih trivial)
  | variableDecl _ ih => exact .variableDecl (ih trivial)
  | statementDecl _ ih => exact .statementDecl (ih trivial)
  | noDeclarations => exact .noDeclarations
  | moreDeclarations _ _ ih ih' => exact .moreDeclarations (ih trivial) (ih' trivial)
  | program => exact hφ.elim
  | whole => exact hφ.elim

theorem Derives.declarations_append {ss ss' : List Stmt} {s t u : Input}
    (h : Derives (.declarations ss) s t) (h' : Derives (.declarations ss') t u) :
    Derives (.declarations (ss ++ ss')) s u := by
  induction ss generalizing s with
  | nil =>
      cases h
      exact h'
  | cons a rest ih =>
      cases h with
      | moreDeclarations ha hrest => exact .moreDeclarations ha (ih hrest)

end LoxLang.Grammar
