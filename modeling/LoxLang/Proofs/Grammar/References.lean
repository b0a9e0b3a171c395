import Mathlib.Data.List.Nodup
import LoxLang.Proofs.Grammar.Identities
import LoxLang.Proofs.Scope.Visits

/-!
The references of a tree, all of them: also those that the static walk does not bind. Reading a tree
gives them identities that are counted on from the first identity that is free, no two the same. The
order is that of the walk, which is not the order of the identities: the reference of an assignment is
counted behind its value, and the increment of a loop before the body.

Identities are words, so that counting starts again at zero behind the last one. What is said here is
said of the number of steps from the first identity, and holds behind the last word too.
-/

namespace LoxLang

open Scope

mutual

def Expr.references : Expr → List Reference
  | .literal _ => []
  | .group inner => inner.references
  | .unary _ right => right.references
  | .binary left _ right => left.references ++ right.references
  | .logical left _ right => left.references ++ right.references
  | .ident ref => [ref]
  | .assign ref value => value.references ++ [ref]
  | .call callee _ arguments => callee.references ++ referencesExprs arguments
  | .function decl => decl.references
  | .get object _ => object.references
  | .set object _ value => object.references ++ value.references
  | .this ref => [ref]
  | .super ref _ => [ref]

def referencesExprs : List Expr → List Reference
  | [] => []
  | e :: rest => e.references ++ referencesExprs rest

def FunctionDecl.references : FunctionDecl → List Reference
  | .mk _ _ _ body => referencesStmts body

def Stmt.references : Stmt → List Reference
  | .expr value => value.references
  | .print value => value.references
  | .var _ none => []
  | .var _ (some value) => value.references
  | .block body => referencesStmts body
  | .branch condition thenBranch none => condition.references ++ thenBranch.references
  | .branch condition thenBranch (some elseBranch) =>
    condition.references ++ (thenBranch.references ++ elseBranch.references)
  | .loop condition body => condition.references ++ body.references
  | .function decl => decl.references
  | .ret _ none => []
  | .ret _ (some value) => value.references
  | .classDecl _ superclass methods => superclass.toList ++ referencesMethods methods

def referencesStmts : List Stmt → List Reference
  | [] => []
  | s :: rest => s.references ++ referencesStmts rest

def referencesMethods : List FunctionDecl → List Reference
  | [] => []
  | d :: rest => d.references ++ referencesMethods rest

end

mutual

/-- The walk visits references of its tree, in their order. -/
theorem Expr.visits_sublist : ∀ (e : Expr) (c : Context) (os : List Origin),
    ((e.visits c os).map Visit.ref).Sublist e.references
  | .literal _, _, _ => .slnil
  | .group inner, c, os => inner.visits_sublist c os
  | .unary _ right, c, os => right.visits_sublist c os
  | .binary left _ right, c, os => by
    simp only [Expr.visits, Expr.references, List.map_append]
    exact (left.visits_sublist c os).append (right.visits_sublist _ os)
  | .logical left _ right, c, os => by
    simp only [Expr.visits, Expr.references, List.map_append]
    exact (left.visits_sublist c os).append (right.visits_sublist _ os)
  | .ident ref, _, _ => .refl [ref]
  | .assign ref value, c, os => by
    simp only [Expr.visits, Expr.references, List.map_append]
    exact (value.visits_sublist c os).append (.refl [ref])
  | .call callee _ arguments, c, os => by
    simp only [Expr.visits, Expr.references, List.map_append]
    exact (callee.visits_sublist c os).append (visitsExprs_sublist arguments _ os)
  | .function decl, c, os => decl.visits_sublist .function c os
  | .get object _, c, os => object.visits_sublist c os
  | .set object _ value, c, os => by
    simp only [Expr.visits, Expr.references, List.map_append]
    exact (object.visits_sublist c os).append (value.visits_sublist _ os)
  | .this ref, c, _ => by
    rw [Expr.visits]
    split
    · exact List.nil_sublist _
    · exact .refl [ref]
  | .super ref _, _, _ => .refl [ref]

theorem visitsExprs_sublist : ∀ (es : List Expr) (c : Context) (os : List Origin),
    ((visitsExprs es c os).map Visit.ref).Sublist (referencesExprs es)
  | [], _, _ => .slnil
  | e :: rest, c, os => by
    simp only [visitsExprs, referencesExprs, List.map_append]
    exact (e.visits_sublist c os).append (visitsExprs_sublist rest _ os)

theorem FunctionDecl.visits_sublist : ∀ (d : FunctionDecl) (kind : FunctionKind) (c : Context)
    (os : List Origin), ((d.visits kind c os).map Visit.ref).Sublist d.references
  | .mk _ _ _ body, _, _, _ => visitsStmts_sublist body _ _

theorem Stmt.visits_sublist : ∀ (s : Stmt) (c : Context) (os : List Origin),
    ((s.visits c os).map Visit.ref).Sublist s.references
  | .expr value, c, os => value.visits_sublist c os
  | .print value, c, os => value.visits_sublist c os
  | .var _ none, _, _ => .slnil
  | .var _ (some value), _, os => value.visits_sublist _ os
  | .block body, _, _ => visitsStmts_sublist body _ _
  | .branch condition thenBranch none, c, os => by
    simp only [Stmt.visits, Stmt.references, List.map_append]
    exact (condition.visits_sublist c os).append (thenBranch.visits_sublist _ os)
  | .branch condition thenBranch (some elseBranch), c, os => by
    simp only [Stmt.visits, Stmt.references, List.map_append, List.append_assoc]
    exact (condition.visits_sublist c os).append
      ((thenBranch.visits_sublist _ os).append (elseBranch.visits_sublist _ os))
  | .loop condition body, c, os => by
    simp only [Stmt.visits, Stmt.references, List.map_append]
    exact (condition.visits_sublist c os).append (body.visits_sublist _ os)
  | .function decl, _, os => decl.visits_sublist .function _ os
  | .ret _ none, _, _ => .slnil
  | .ret _ (some value), _, os => value.visits_sublist _ os
  | .classDecl _ none methods, _, _ => visitsMethods_sublist methods _ _
  | .classDecl _ (some ref) methods, _, _ =>
    (List.Sublist.refl [ref]).append (visitsMethods_sublist methods _ _)

theorem visitsStmts_sublist : ∀ (ss : List Stmt) (c : Context) (os : List Origin),
    ((visitsStmts ss c os).map Visit.ref).Sublist (referencesStmts ss)
  | [], _, _ => .slnil
  | s :: rest, c, os => by
    simp only [visitsStmts, referencesStmts, List.map_append]
    exact (s.visits_sublist c os).append (visitsStmts_sublist rest _ os)

theorem visitsMethods_sublist : ∀ (ds : List FunctionDecl) (c : Context) (os : List Origin),
    ((visitsMethods ds c os).map Visit.ref).Sublist (referencesMethods ds)
  | [], _, _ => .slnil
  | d :: rest, c, os => by
    simp only [visitsMethods, referencesMethods, List.map_append]
    exact (d.visits_sublist _ c os).append (visitsMethods_sublist rest _ os)

end

namespace Grammar

/-- References whose identities are different ones of the `n` that are counted on from `i`. -/
def Counted (i : Identity) (n : Nat) (refs : List Reference) : Prop :=
  ∃ steps : List Nat, steps.Nodup ∧ (∀ k ∈ steps, k < n) ∧
    (refs.map Reference.id).Perm (steps.map fun k => i + .ofNat k)

namespace Counted

variable {i j : Identity} {m n : Nat} {refs refs' : List Reference} {ref : Reference}

theorem nil : Counted i n [] :=
  ⟨[], by simp⟩

theorem single (name : Token) (i : Identity) : Counted i 1 [⟨i, name⟩] :=
  ⟨[0], by simp⟩

theorem perm (h : Counted i n refs) (hperm : refs'.Perm refs) : Counted i n refs' := by
  obtain ⟨steps, hdistinct, hbound, hids⟩ := h
  exact ⟨steps, hdistinct, hbound, (hperm.map _).trans hids⟩

/-- References that are counted on from where the others end. -/
theorem append (h : Counted i m refs) (hapart : Apart m i j) (h' : Counted j n refs') :
    Counted i (m + n) (refs ++ refs') := by
  obtain ⟨steps, hdistinct, hbound, hids⟩ := h
  obtain ⟨steps', hdistinct', hbound', hids'⟩ := h'
  refine ⟨steps ++ steps'.map (m + ·), ?_, ?_, ?_⟩
  · rw [List.nodup_append]
    refine ⟨hdistinct, hdistinct'.map fun _ _ => Nat.add_left_cancel, ?_⟩
    intro k hk k' hk' heq
    obtain ⟨l, -, rfl⟩ := List.mem_map.mp hk'
    have := hbound k hk
    omega
  · intro k hk
    rcases List.mem_append.mp hk with hk | hk
    · have := hbound k hk
      omega
    · obtain ⟨l, hl, rfl⟩ := List.mem_map.mp hk
      have := hbound' l hl
      omega
  · have hmoved : (steps'.map (m + ·)).map (fun k => i + UInt64.ofNat k) =
        steps'.map fun k => j + UInt64.ofNat k := by
      rw [Apart] at hapart
      simp [hapart, Function.comp_def, UInt64.add_assoc]
    rw [List.map_append, List.map_append, hmoved]
    exact hids.append hids'

theorem mem (h : Counted i n refs) (href : ref ∈ refs) : ∃ k < n, ref.id = i + .ofNat k := by
  obtain ⟨steps, -, hbound, hids⟩ := h
  have hmem := hids.mem_iff.mp (List.mem_map_of_mem href)
  obtain ⟨k, hk, heq⟩ := List.mem_map.mp hmem
  exact ⟨k, hbound k hk, heq.symm⟩

/-- Fewer steps than there are words lead to different identities. -/
theorem distinct (h : Counted i n refs) (hn : n ≤ UInt64.size) :
    (refs.map Reference.id).Nodup := by
  obtain ⟨steps, hdistinct, hbound, hids⟩ := h
  rw [hids.nodup_iff]
  refine List.Nodup.map_on ?_ hdistinct
  intro k hk l hl heq
  have hk := hbound k hk
  have hl := hbound l hl
  have hofNat := congrArg UInt64.toNat ((UInt64.add_right_inj i).mp heq)
  rwa [UInt64.toNat_ofNat_of_lt' (by omega), UInt64.toNat_ofNat_of_lt' (by omega)] at hofNat

/-- Where counting has not started again at zero, the identities are between the first and the last. -/
theorem between (h : Counted i n refs) (hapart : Apart n i j) (hn : n < UInt64.size) (hle : i ≤ j) :
    ∀ ref ∈ refs, i ≤ ref.id ∧ ref.id < j := by
  intro ref href
  obtain ⟨k, hk, hid⟩ := h.mem href
  have hmodulus : UInt64.size = 2 ^ 64 := rfl
  have hi := i.toNat_lt
  have hj : j.toNat = (i.toNat + n) % 2 ^ 64 := by
    rw [hapart, UInt64.toNat_add, UInt64.toNat_ofNat_of_lt' hn]
  have hid : ref.id.toNat = (i.toNat + k) % 2 ^ 64 := by
    rw [hid, UInt64.toNat_add, UInt64.toNat_ofNat_of_lt' (by omega)]
  rw [UInt64.le_iff_toNat_le] at hle ⊢
  rw [UInt64.lt_iff_toNat_lt]
  omega

end Counted

/-- The references of a phrase. -/
def Phrase.references : Phrase → List Reference
  | .expr _ e => e.references
  | .option none => []
  | .option (some e) => e.references
  | .arguments es => referencesExprs es
  | .parameters _ => []
  | .callable _ body => referencesStmts body
  | .function d => d.references
  | .functions ds => referencesMethods ds
  | .block body => referencesStmts body
  | .variable s => s.references
  | .exprStmt s => s.references
  | .forInit none => []
  | .forInit (some s) => s.references
  | .statement _ s => s.references
  | .declaration s => s.references
  | .declarations ss => referencesStmts ss
  | .program ss => referencesStmts ss
  | .whole e => e.references

theorem references_join (tier : Tier) (left : Expr) (operator : Token) (right : Expr) :
    (tier.join left operator right).references = left.references ++ right.references := by
  cases tier <;> rfl

/-- The increment of a loop is read before its body, and stands behind it in the tree. -/
theorem references_forLoop (init : Option Stmt) (condition increment : Option Expr) (body : Stmt) :
    (forLoop init (condition.getD (.literal (.bool true))) increment body).references.Perm
      ((Phrase.forInit init).references ++ (Phrase.option condition).references ++
        (Phrase.option increment).references ++ body.references) := by
  cases init <;> cases condition <;> cases increment <;>
    simp [forLoop, Phrase.references, Stmt.references, referencesStmts, Expr.references,
      List.perm_append_comm, List.perm_append_left_iff]

/-- A phrase has the identities that it uses up, each at one reference at most. -/
theorem Derives.counted {φ : Phrase} {s t : Input} (h : Derives φ s t) :
    Counted s.nextId φ.identities φ.references := by
  induction h with
  | tighter _ _ ih => exact ih
  | @assignName _ _ _ j name _ _ _ _ hvalue ih =>
      have hlast := ih.append hvalue.identities (.single name j)
      have hskipped := (Counted.nil (n := 1)).append (.next _) hlast
      rw [Phrase.identities, Expr.identities, Nat.add_assoc]
      exact hskipped
  | assignProperty hobject _ _ _ _ ih ih' => exact ih.append hobject.identities ih'
  | joined hleft _ _ ih ih' =>
      rw [Phrase.identities, identities_join, Phrase.references, references_join]
      exact ih.append hleft.identities ih'
  | unary _ _ ih => exact ih
  | call hcallee _ _ _ _ ih ih' => exact ih.append hcallee.identities ih'
  | property _ _ _ ih => exact ih
  | falseLiteral | trueLiteral | nilLiteral | numberLiteral | textLiteral => exact .nil
  | this | ident | super => exact .single _ _
  | group _ _ _ ih => exact ih
  | anonymous _ _ ih => exact ih
  | missing | noArguments | noParameters | lastParameter | noFunctions => exact .nil
  | present _ ih => exact ih
  | lastArgument he ih => exact ih.append he.identities .nil
  | moreArguments he _ _ _ ih ih' => exact ih.append he.identities ih'
  | moreParameters _ _ _ _ ih => exact ih
  | callable _ hparams _ _ _ _ ih' =>
      have hnames := (Counted.nil (n := 0)).append hparams.identities ih'
      rwa [Nat.zero_add] at hnames
  | function _ _ ih => exact ih
  | moreFunctions hd _ ih ih' => exact ih.append hd.identities ih'
  | block _ _ _ ih => exact ih
  | bareVariable => exact .nil
  | setVariable _ _ _ _ _ ih => exact ih
  | exprStmt _ _ ih => exact ih
  | noInit => exact .nil
  | variableInit _ ih => exact ih
  | exprInit _ ih => exact ih
  | simple _ ih => exact ih
  | print _ _ _ ih => exact ih
  | @ret _ _ _ _ _ _ value _ _ _ ih => cases value <;> exact ih
  | compound _ ih => exact ih
  | loop _ _ hcondition _ _ ih ih' => exact ih.append hcondition.identities ih'
  | forLoop _ _ hinit hcondition _ hincrement _ _ htree ih ih' ih'' ih''' =>
      obtain rfl := forTree_iff.mp htree
      have hhead := ih.append hinit.identities ih'
      have hhead' := hhead.append (hinit.identities.trans hcondition.identities) ih''
      have hwhole := hhead'.append
        ((hinit.identities.trans hcondition.identities).trans hincrement.identities) ih'''
      rw [Phrase.identities, identities_forLoop]
      exact hwhole.perm (references_forLoop _ _ _ _)
  | ifThen _ _ hcondition _ _ ih ih' => exact ih.append hcondition.identities ih'
  | ifElse _ _ hcondition _ hthen _ _ ih ih' ih'' =>
      rw [Phrase.identities, Stmt.identities, Nat.add_assoc]
      exact ih.append hcondition.identities (ih'.append hthen.identities ih'')
  | baseClass _ _ _ _ _ ih => exact ih
  | derivedClass _ _ _ _ _ _ _ ih => exact (Counted.single _ _).append (.next _) ih
  | functionDecl _ _ ih => exact ih
  | variableDecl _ ih => exact ih
  | statementDecl _ ih => exact ih
  | noDeclarations => exact .nil
  | moreDeclarations ha _ ih ih' => exact ih.append ha.identities ih'
  | program _ _ ih => exact ih
  | whole _ _ ih => exact ih

end Grammar

end LoxLang
