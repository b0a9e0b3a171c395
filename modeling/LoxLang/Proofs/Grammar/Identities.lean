import LoxLang.Proofs.Grammar.Derivation
import LoxLang.Proofs.Scope.Renaming

/-!
How many identities reading a tree uses up: one for every reference, and one more for an assignment,
whose left side is read as a variable first. The number depends on the shape of the tree only, so that
renaming variables does not change it.
-/

namespace LoxLang

open Scope

mutual

def Expr.identities : Expr → Nat
  | .literal _ => 0
  | .group inner => inner.identities
  | .unary _ right => right.identities
  | .binary left _ right => left.identities + right.identities
  | .logical left _ right => left.identities + right.identities
  | .ident _ => 1
  | .assign _ value => 1 + value.identities + 1
  | .call callee _ arguments => callee.identities + identitiesExprs arguments
  | .function decl => decl.identities
  | .get object _ => object.identities
  | .set object _ value => object.identities + value.identities
  | .this _ => 1
  | .super _ _ => 1

def identitiesExprs : List Expr → Nat
  | [] => 0
  | e :: rest => e.identities + identitiesExprs rest

def FunctionDecl.identities : FunctionDecl → Nat
  | .mk _ _ _ body => identitiesStmts body

def Stmt.identities : Stmt → Nat
  | .expr value => value.identities
  | .print value => value.identities
  | .var _ none => 0
  | .var _ (some value) => value.identities
  | .block body => identitiesStmts body
  | .branch condition thenBranch none => condition.identities + thenBranch.identities
  | .branch condition thenBranch (some elseBranch) =>
    condition.identities + thenBranch.identities + elseBranch.identities
  | .loop condition body => condition.identities + body.identities
  | .function decl => decl.identities
  | .ret _ none => 0
  | .ret _ (some value) => value.identities
  | .classDecl _ none methods => identitiesMethods methods
  | .classDecl _ (some _) methods => 1 + identitiesMethods methods

def identitiesStmts : List Stmt → Nat
  | [] => 0
  | s :: rest => s.identities + identitiesStmts rest

def identitiesMethods : List FunctionDecl → Nat
  | [] => 0
  | d :: rest => d.identities + identitiesMethods rest

end

namespace Scope

def Pair.SameIdentities : Pair → Prop
  | .expr e e' => e'.identities = e.identities
  | .exprs es es' => identitiesExprs es' = identitiesExprs es
  | .decl d d' => d'.identities = d.identities
  | .methods ds ds' => identitiesMethods ds' = identitiesMethods ds
  | .stmt s s' => s'.identities = s.identities
  | .stmts ss ss' => identitiesStmts ss' = identitiesStmts ss

/-- Renaming variables leaves the number of identities as it is. -/
theorem Renaming.Renames.sameIdentities {r : Renaming} {φ : List Bool} {p : Pair}
    (h : r.Renames φ p) : p.SameIdentities := by
  induction h <;>
    simp_all only [Pair.SameIdentities, Expr.identities, identitiesExprs, FunctionDecl.identities,
      Stmt.identities, identitiesStmts, identitiesMethods]

end Scope

namespace Grammar

/-- One identity is counted on from another. -/
def Apart (k : Nat) (i j : Identity) : Prop :=
  j = i + .ofNat k

section

variable {a b : Nat} {i j k : Identity}

theorem Apart.refl (i : Identity) : Apart 0 i i :=
  (UInt64.add_zero i).symm

theorem Apart.next (i : Identity) : Apart 1 i (i + 1) :=
  rfl

theorem Apart.trans (h : Apart a i j) (h' : Apart b j k) : Apart (a + b) i k := by
  rw [Apart, h', h, UInt64.ofNat_add, UInt64.add_assoc]

end

def Phrase.identities : Phrase → Nat
  | .expr _ e => e.identities
  | .option none => 0
  | .option (some e) => e.identities
  | .arguments es => identitiesExprs es
  | .parameters _ => 0
  | .callable _ body => identitiesStmts body
  | .function d => d.identities
  | .functions ds => identitiesMethods ds
  | .block body => identitiesStmts body
  | .variable s => s.identities
  | .exprStmt s => s.identities
  | .forInit none => 0
  | .forInit (some s) => s.identities
  | .statement _ s => s.identities
  | .declaration s => s.identities
  | .declarations ss => identitiesStmts ss
  | .program ss => identitiesStmts ss
  | .whole e => e.identities

theorem identities_join (tier : Tier) (left : Expr) (operator : Token) (right : Expr) :
    (tier.join left operator right).identities = left.identities + right.identities := by
  cases tier <;> rfl

theorem identities_forLoop (init : Option Stmt) (condition increment : Option Expr) (body : Stmt) :
    (forLoop init (condition.getD (.literal (.bool true))) increment body).identities =
      (Phrase.forInit init).identities + (Phrase.option condition).identities +
        (Phrase.option increment).identities + body.identities := by
  cases init <;> cases condition <;> cases increment <;>
    simp [forLoop, Phrase.identities, Stmt.identities, identitiesStmts, Expr.identities] <;> omega

/-- A phrase uses up the identities that its tree needs. -/
theorem Derives.identities {φ : Phrase} {s t : Input} (h : Derives φ s t) :
    Apart φ.identities s.nextId t.nextId := by
  induction h with
  | tighter _ _ ih => exact ih
  | assignName _ _ _ ih => exact ((Apart.next _).trans ih).trans (.next _)
  | assignProperty _ _ _ _ _ ih ih' => exact ih.trans ih'
  | joined _ _ _ ih ih' =>
      rw [Phrase.identities, identities_join]
      exact ih.trans ih'
  | unary _ _ ih => exact ih
  | call _ _ _ _ _ ih ih' => exact ih.trans ih'
  | property _ _ _ ih => exact ih
  | falseLiteral | trueLiteral | nilLiteral | numberLiteral | textLiteral => exact .refl _
  | this | ident | super => exact .next _
  | group _ _ _ ih => exact ih
  | anonymous _ _ ih => exact ih
  | missing | noArguments | noParameters | lastParameter | noFunctions => exact .refl _
  | present _ ih => exact ih
  | lastArgument _ ih => exact ih
  | moreArguments _ _ _ _ ih ih' => exact ih.trans ih'
  | moreParameters _ _ _ _ ih => exact ih
  | callable _ _ _ _ _ ih ih' =>
      have := ih.trans ih'
      rwa [Phrase.identities, Nat.zero_add] at this
  | function _ _ ih => exact ih
  | moreFunctions _ _ ih ih' => exact ih.trans ih'
  | block _ _ _ ih => exact ih
  | bareVariable => exact .refl _
  | setVariable _ _ _ _ _ ih => exact ih
  | exprStmt _ _ ih => exact ih
  | noInit => exact .refl _
  | variableInit _ ih => exact ih
  | exprInit _ ih => exact ih
  | simple _ ih => exact ih
  | print _ _ _ ih => exact ih
  | @ret _ _ _ _ _ _ value _ _ _ ih => cases value <;> exact ih
  | compound _ ih => exact ih
  | loop _ _ _ _ _ ih ih' => exact ih.trans ih'
  | forLoop _ _ _ _ _ _ _ _ htree ih ih' ih'' ih''' =>
      obtain rfl := forTree_iff.mp htree
      rw [Phrase.identities, identities_forLoop]
      exact ((ih.trans ih').trans ih'').trans ih'''
  | ifThen _ _ _ _ _ ih ih' => exact ih.trans ih'
  | ifElse _ _ _ _ _ _ _ ih ih' ih'' => exact (ih.trans ih').trans ih''
  | baseClass _ _ _ _ _ ih => exact ih
  | derivedClass _ _ _ _ _ _ _ ih => exact (Apart.next _).trans ih
  | functionDecl _ _ ih => exact ih
  | variableDecl _ ih => exact ih
  | statementDecl _ ih => exact ih
  | noDeclarations => exact .refl _
  | moreDeclarations _ _ ih ih' => exact ih.trans ih'
  | program _ _ ih => exact ih
  | whole _ _ ih => exact ih

/-- A phrase takes a token at least for every identity that it uses up. -/
theorem Derives.identities_le {φ : Phrase} {s t : Input} (h : Derives φ s t) :
    φ.identities + t.tokens.length ≤ s.tokens.length := by
  induction h with
  | joined =>
      rw [Phrase.identities, identities_join]
      simp only [Phrase.identities, List.length_cons] at *
      omega
  | forLoop _ _ _ _ _ _ _ _ htree =>
      obtain rfl := forTree_iff.mp htree
      rw [Phrase.identities, identities_forLoop]
      simp only [Phrase.identities, List.length_cons] at *
      omega
  | @ret _ _ _ _ _ _ value =>
      cases value <;>
        simp only [Phrase.identities, Stmt.identities, List.length_cons] at * <;> omega
  | _ =>
      simp only [Phrase.identities, Expr.identities, identitiesExprs, FunctionDecl.identities,
        Stmt.identities, identitiesStmts, identitiesMethods, List.length_cons, List.length_append]
        at *
      omega

end Grammar

end LoxLang
