import Mathlib.Logic.Equiv.Basic
import LoxLang.Proofs.Scope.Visits

/-!
Renaming local variables. A renaming replaces one name by another in some of the scopes of a program:
at the declarations of the name in these scopes, and at the references that a table of distances binds
to them. `Renames` says that one tree is so renamed to another; every scope has a flag that says
whether it is one of those in which the name is replaced.
-/

namespace LoxLang

namespace Scope

/-- The names of the scopes that classes open. -/
def Reserved (name : String) : Prop :=
  name = "this" ∨ name = "super"

structure Renaming where
  table : Distances
  name : String
  fresh : String

namespace Renaming

variable (r : Renaming)

/-- The names of a scope: in a flagged scope the two names trade places. -/
def perm (flag : Bool) : Equiv.Perm String :=
  if flag then Equiv.swap r.name r.fresh else .refl _

/-- The token for a declaration of a variable. -/
def declared (flag : Bool) (t : Token) : Token :=
  if flag = true ∧ t.lexeme = r.name then { t with lexeme := r.fresh } else t

/-- The flag of the scope that a reference is bound to. -/
def flagOf (flags : List Bool) (ref : Reference) : Bool :=
  match r.table.lookup ref.id with
  | some d => flags.getD d false
  | none => false

/-- The reference in the place of one that is bound to a scope. -/
def reference (flags : List Bool) (ref : Reference) : Reference :=
  { ref with name := r.declared (r.flagOf flags ref) ref.name }

/-- What becomes of a name. -/
def Maps (name name' : String) : Prop :=
  name' = name ∨ name = r.name ∧ name' = r.fresh

/-- Where something is renamed around, the fresh name is not in use. -/
def Avoids (flags : List Bool) (name : String) : Prop :=
  true ∈ flags → name ≠ r.fresh

/-- The flag of the innermost scope. -/
def here (flags : List Bool) : Bool :=
  flags.headD false

inductive Renames : List Bool → Pair → Prop
  | literal {φ v} : Renames φ (.expr (.literal v) (.literal v))
  | group {φ e e'} (he : Renames φ (.expr e e')) : Renames φ (.expr (.group e) (.group e'))
  | unary {φ o e e'} (he : Renames φ (.expr e e')) : Renames φ (.expr (.unary o e) (.unary o e'))
  | binary {φ l l' o e e'} (hl : Renames φ (.expr l l')) (he : Renames φ (.expr e e')) :
    Renames φ (.expr (.binary l o e) (.binary l' o e'))
  | logical {φ l l' o e e'} (hl : Renames φ (.expr l l')) (he : Renames φ (.expr e e')) :
    Renames φ (.expr (.logical l o e) (.logical l' o e'))
  | ident {φ ref} (hfresh : r.Avoids φ ref.name.lexeme) :
    Renames φ (.expr (.ident ref) (.ident (r.reference φ ref)))
  | assign {φ ref v v'} (hfresh : r.Avoids φ ref.name.lexeme) (hv : Renames φ (.expr v v')) :
    Renames φ (.expr (.assign ref v) (.assign (r.reference φ ref) v'))
  | call {φ f f' p es es'} (hf : Renames φ (.expr f f')) (hes : Renames φ (.exprs es es')) :
    Renames φ (.expr (.call f p es) (.call f' p es'))
  | function {φ d d'} (hd : Renames φ (.decl d d')) : Renames φ (.expr (.function d) (.function d'))
  | get {φ o o' n} (ho : Renames φ (.expr o o')) : Renames φ (.expr (.get o n) (.get o' n))
  | set {φ o o' n v v'} (ho : Renames φ (.expr o o')) (hv : Renames φ (.expr v v')) :
    Renames φ (.expr (.set o n v) (.set o' n v'))
  | this {φ ref} : Renames φ (.expr (.this ref) (.this ref))
  | super {φ ref m} : Renames φ (.expr (.super ref m) (.super ref m))
  | noExprs {φ} : Renames φ (.exprs [] [])
  | moreExprs {φ e e' es es'} (he : Renames φ (.expr e e')) (hes : Renames φ (.exprs es es')) :
    Renames φ (.exprs (e :: es) (e' :: es'))
  | decl {φ flag name line params body body'}
    (hfresh : ∀ p ∈ params, r.Avoids (flag :: φ) p.lexeme)
    (hbody : Renames (flag :: φ) (.stmts body body')) :
    Renames φ (.decl (.mk name line params body) (.mk name line (params.map (r.declared flag)) body'))
  | noMethods {φ} : Renames φ (.methods [] [])
  | moreMethods {φ d d' ds ds'} (hd : Renames φ (.decl d d')) (hds : Renames φ (.methods ds ds')) :
    Renames φ (.methods (d :: ds) (d' :: ds'))
  | exprStmt {φ e e'} (he : Renames φ (.expr e e')) : Renames φ (.stmt (.expr e) (.expr e'))
  | print {φ e e'} (he : Renames φ (.expr e e')) : Renames φ (.stmt (.print e) (.print e'))
  | bareVar {φ n} (hfresh : r.Avoids φ n.lexeme) :
    Renames φ (.stmt (.var n none) (.var (r.declared (here φ) n) none))
  | setVar {φ n v v'} (hfresh : r.Avoids φ n.lexeme) (hv : Renames φ (.expr v v')) :
    Renames φ (.stmt (.var n (some v)) (.var (r.declared (here φ) n) (some v')))
  | block {φ flag body body'} (hbody : Renames (flag :: φ) (.stmts body body')) :
    Renames φ (.stmt (.block body) (.block body'))
  | ifThen {φ c c' a a'} (hc : Renames φ (.expr c c')) (ha : Renames φ (.stmt a a')) :
    Renames φ (.stmt (.branch c a none) (.branch c' a' none))
  | ifElse {φ c c' a a' b b'} (hc : Renames φ (.expr c c')) (ha : Renames φ (.stmt a a'))
    (hb : Renames φ (.stmt b b')) :
    Renames φ (.stmt (.branch c a (some b)) (.branch c' a' (some b')))
  | loop {φ c c' a a'} (hc : Renames φ (.expr c c')) (ha : Renames φ (.stmt a a')) :
    Renames φ (.stmt (.loop c a) (.loop c' a'))
  | functionStmt {φ d d'} (hfresh : r.Avoids φ d.name) (hkept : here φ = true → d.name ≠ r.name)
    (hd : Renames φ (.decl d d')) : Renames φ (.stmt (.function d) (.function d'))
  | bareRet {φ k} : Renames φ (.stmt (.ret k none) (.ret k none))
  | ret {φ k e e'} (he : Renames φ (.expr e e')) :
    Renames φ (.stmt (.ret k (some e)) (.ret k (some e')))
  | baseClass {φ n ms ms'} (hfresh : r.Avoids φ n.lexeme)
    (hkept : here φ = true → n.lexeme ≠ r.name) (hms : Renames (false :: φ) (.methods ms ms')) :
    Renames φ (.stmt (.classDecl n none ms) (.classDecl n none ms'))
  | derivedClass {φ n up ms ms'} (hfresh : r.Avoids φ n.lexeme)
    (hkept : here φ = true → n.lexeme ≠ r.name) (hup : r.Avoids φ up.name.lexeme)
    (hms : Renames (false :: false :: φ) (.methods ms ms')) :
    Renames φ (.stmt (.classDecl n (some up) ms) (.classDecl n (some (r.reference φ up)) ms'))
  | noStmts {φ} : Renames φ (.stmts [] [])
  | moreStmts {φ s s' ss ss'} (hs : Renames φ (.stmt s s')) (hss : Renames φ (.stmts ss ss')) :
    Renames φ (.stmts (s :: ss) (s' :: ss'))

/-! ### Names -/

/-- A renaming of variables. -/
structure OfVariables : Prop where
  name : ¬Reserved r.name
  fresh : ¬Reserved r.fresh

variable {r} {φ : List Bool} {flag : Bool} {name : String} {Γ : Layers}

theorem declared_lexeme {t : Token} (h : flag = true → t.lexeme ≠ r.fresh) :
    (r.declared flag t).lexeme = r.perm flag t.lexeme := by
  unfold declared perm
  cases flag with
  | false => rfl
  | true =>
      by_cases ht : t.lexeme = r.name
      · simp [ht]
      · simp [ht, Equiv.swap_apply_of_ne_of_ne ht (h rfl)]

theorem maps_reference (ref : Reference) :
    r.Maps ref.name.lexeme (r.reference φ ref).name.lexeme := by
  unfold reference declared
  dsimp only
  split
  case isTrue h => exact .inr ⟨h.2, rfl⟩
  case isFalse => exact .inl rfl

theorem declared_kind (t : Token) : (r.declared flag t).kind = t.kind := by
  unfold declared
  split <;> rfl

theorem declared_line (t : Token) : (r.declared flag t).line = t.line := by
  unfold declared
  split <;> rfl

/-- Flags and layers that belong together. The fresh name is in no layer where something is renamed
around. -/
inductive Covers (r : Renaming) : List Bool → Layers → Prop
  | nil : Covers r [] []
  | cons {flag φ l Γ} (hrename : l.rename = r.perm flag)
    (hfresh : true ∈ flag :: φ → l.names.contains r.fresh = false) (h : Covers r φ Γ) :
    Covers r (flag :: φ) (l :: Γ)

theorem Avoids.outer (h : r.Avoids (flag :: φ) name) : r.Avoids φ name :=
  fun hφ => h (List.mem_cons_of_mem _ hφ)

theorem perm_true_name : r.perm true r.name = r.fresh :=
  Equiv.swap_apply_left _ _

theorem perm_of_ne (hname : name ≠ r.name) (hfresh : flag = true → name ≠ r.fresh) :
    r.perm flag name = name := by
  cases flag with
  | false => rfl
  | true => exact Equiv.swap_apply_of_ne_of_ne hname (hfresh rfl)

/-- A name is used under itself, or under the fresh name if a scope around is flagged. -/
theorem Covers.nameOf_cases (h : Covers r φ Γ) (havoids : r.Avoids φ name) :
    Γ.nameOf name = name ∨ Γ.nameOf name = r.fresh ∧ name = r.name ∧ true ∈ φ := by
  induction h with
  | nil => exact .inl rfl
  | @cons flag φ l Γ hrename hfresh h ih =>
      rw [Layers.nameOf]
      split
      · by_cases hname : flag = true ∧ name = r.name
        · obtain ⟨rfl, rfl⟩ := hname
          exact .inr ⟨by rw [hrename, perm_true_name], rfl, List.mem_cons_self ..⟩
        · refine .inl ?_
          rw [hrename]
          cases flag with
          | false => rfl
          | true =>
              have hne : name ≠ r.name := fun heq => hname ⟨rfl, heq⟩
              exact perm_of_ne hne fun _ => havoids (List.mem_cons_self ..)
      · rcases ih havoids.outer with heq | ⟨heq, hname, hφ⟩
        · exact .inl heq
        · exact .inr ⟨heq, hname, List.mem_cons_of_mem _ hφ⟩

end Renaming

/-- The scopes of the layers in the other program. -/
def Layers.renamed (Γ : Layers) : List (Bindings Bool) :=
  Γ.map fun l => l.names.rename l.rename

theorem Layers.renamed_mark (Γ : Layers) (name : String) (ready : Bool) :
    (Γ.mark name ready).renamed = markIn (Γ.here name) ready Γ.renamed := by
  cases Γ with
  | nil => rfl
  | cons l Γ =>
      exact congrArg (· :: _) (Bindings.insert_rename l.rename.injective l.names name ready).symm

namespace Renaming

variable {r : Renaming} {φ : List Bool} {flag : Bool} {name : String} {Γ : Layers} {l : Layer}

/-- The innermost scope has a name under the name that it is used by, and nothing else there has. -/
theorem Covers.find?_nameOf (h : Covers r (flag :: φ) (l :: Γ)) (havoids : r.Avoids (flag :: φ) name) :
    (l.names.rename l.rename).find? (Layers.nameOf (l :: Γ) name) = l.names.find? name := by
  rw [Layers.nameOf]
  split
  · exact Bindings.find?_rename l.rename.injective _ name
  case isFalse hcontains =>
    cases h with
    | cons hrename hfresh h =>
    have hfound : ∀ {other : String}, l.names.contains other = false →
        l.names.find? other = none := by
      intro other hother
      exact Option.isNone_iff_eq_none.mp (by simpa [Bindings.contains] using hother)
    have hnone := hfound (by simpa using hcontains)
    -- The name in use is the name of something that the scope does not have.
    have key : ∃ other, l.rename other = Γ.nameOf name ∧ l.names.contains other = false := by
      rw [hrename]
      rcases h.nameOf_cases havoids.outer with heq | ⟨heq, rfl, hφ⟩
      · rw [heq]
        by_cases hname : flag = true ∧ name = r.name
        · obtain ⟨rfl, rfl⟩ := hname
          exact ⟨r.fresh, Equiv.swap_apply_right _ _, hfresh (List.mem_cons_self ..)⟩
        · refine ⟨name, ?_, by simpa using hcontains⟩
          cases flag with
          | false => rfl
          | true =>
              have hne : name ≠ r.name := fun heq => hname ⟨rfl, heq⟩
              exact perm_of_ne hne fun _ => havoids (List.mem_cons_self ..)
      · rw [heq]
        cases flag with
        | false => exact ⟨r.fresh, rfl, hfresh (List.mem_cons_of_mem _ hφ)⟩
        | true => exact ⟨r.name, perm_true_name, by simpa using hcontains⟩
    obtain ⟨other, hother, hmissing⟩ := key
    rw [← hother, Bindings.find?_rename l.rename.injective, hfound hmissing, hnone]

/-- In the other program a name is as far away as in this one. -/
theorem Covers.distance? (h : Covers r φ Γ) (havoids : r.Avoids φ name) :
    Γ.renamed.findIdx? (·.contains (Γ.nameOf name)) = Γ.distance? name := by
  induction h with
  | nil => rfl
  | @cons flag φ l Γ hrename hfresh h ih =>
      have hfound := (Covers.cons hrename hfresh h).find?_nameOf havoids
      have hcontains : (l.names.rename l.rename).contains (Layers.nameOf (l :: Γ) name) =
          l.names.contains name := by
        rw [Bindings.contains, hfound, Bindings.contains]
      change List.findIdx? _ (_ :: Γ.renamed) = _
      rw [List.findIdx?_cons, hcontains, Layers.distance?, List.findIdx?_cons]
      split
      · rfl
      case isFalse hmissing =>
        rw [Layers.nameOf, if_neg hmissing, ih havoids.outer, Layers.distance?]

/-- In the other program the innermost scope says the same of a name. -/
theorem Covers.innermost? (h : Covers r φ Γ) (havoids : r.Avoids φ name) :
    (Γ.renamed.head?.bind fun scope => scope.find? (Γ.nameOf name)) = Γ.innermost? name := by
  cases h with
  | nil => rfl
  | cons hrename hfresh h => exact (Covers.cons hrename hfresh h).find?_nameOf havoids

theorem Covers.rename (h : Covers r φ Γ) {d : Nat} (hl : Γ[d]? = some l) :
    l.rename = r.perm (φ.getD d false) := by
  induction h generalizing d with
  | nil => cases hl
  | cons hrename _ _ ih =>
      cases d with
      | zero =>
          cases hl
          exact hrename
      | succ d => exact ih hl

theorem Avoids.flagOf {ref : Reference} (havoids : r.Avoids φ name)
    (h : r.flagOf φ ref = true) : name ≠ r.fresh := by
  apply havoids
  unfold Renaming.flagOf at h
  split at h
  case h_1 d _ =>
    rw [List.getD_eq_getElem?_getD] at h
    cases hflag : φ[d]? with
    | none => simp [hflag] at h
    | some flag =>
        rw [hflag, Option.getD_some] at h
        exact h ▸ List.mem_of_getElem? hflag
  case h_2 => cases h

/-- The table gives a reference the name that belongs to its place. -/
theorem Covers.reference_lexeme (h : Covers r φ Γ) {ref : Reference}
    (havoids : r.Avoids φ ref.name.lexeme)
    (htable : r.table.lookup ref.id = Γ.distance? ref.name.lexeme) :
    (r.reference φ ref).name.lexeme = Γ.nameOf ref.name.lexeme := by
  rw [reference, declared_lexeme havoids.flagOf, flagOf, htable]
  cases hdistance : Γ.distance? ref.name.lexeme with
  | none => exact (Layers.nameOf_of_global hdistance).symm
  | some d =>
      obtain ⟨l, hl, -, hname⟩ := Layers.layer_of_distance? hdistance
      rw [hname, h.rename hl]

theorem Covers.mark (h : Covers r φ Γ) (havoids : r.Avoids φ name) (ready : Bool) :
    Covers r φ (Γ.mark name ready) := by
  cases h with
  | nil => exact .nil
  | @cons flag φ l Γ hrename hfresh h =>
      refine .cons hrename ?_ h
      intro hφ
      have hmissing := hfresh hφ
      have hne := havoids hφ
      rw [← Bool.not_eq_true, Bindings.contains_insert]
      rintro (heq | hcontains)
      · exact hne heq
      · rw [hmissing] at hcontains
        cases hcontains

/-! ### Nothing renamed -/

/-- None of the scopes around is renamed. -/
def Idle (φ : List Bool) : Prop :=
  true ∉ φ

theorem Idle.cons (h : Idle φ) : Idle (false :: φ) := by
  rintro (_ | ⟨_, hmem⟩)
  exact h hmem

theorem Idle.avoids (h : Idle φ) : r.Avoids φ name :=
  fun hmem => absurd hmem h

theorem Idle.here_eq (h : Idle φ) : here φ = false := by
  cases φ with
  | nil => rfl
  | cons flag φ =>
      cases flag with
      | false => rfl
      | true => exact absurd (List.mem_cons_self ..) h

theorem Idle.reference_eq (h : Idle φ) (ref : Reference) : r.reference φ ref = ref := by
  have hflag : r.flagOf φ ref = false := by
    rw [← Bool.not_eq_true]
    intro hflag
    unfold flagOf at hflag
    split at hflag
    case h_1 d _ =>
      rw [List.getD_eq_getElem?_getD] at hflag
      cases hd : φ[d]? with
      | none => simp [hd] at hflag
      | some flag =>
          rw [hd, Option.getD_some] at hflag
          exact h (hflag ▸ List.mem_of_getElem? hd)
    case h_2 => cases hflag
  rw [reference, hflag]
  rfl

theorem map_declared_false (params : List Token) : params.map (r.declared false) = params :=
  List.map_id' params

end Renaming

end Scope

open Scope Renaming

section

variable {r : Renaming}

mutual

theorem Expr.renames_self {φ : List Bool} (h : Idle φ) : ∀ e : Expr, r.Renames φ (.expr e e)
  | .literal _ => .literal
  | .group inner => .group (inner.renames_self h)
  | .unary _ right => .unary (right.renames_self h)
  | .binary left _ right => .binary (left.renames_self h) (right.renames_self h)
  | .logical left _ right => .logical (left.renames_self h) (right.renames_self h)
  | .ident ref => by
    have hident : r.Renames φ (.expr (.ident ref) (.ident (r.reference φ ref))) := .ident h.avoids
    rwa [h.reference_eq] at hident
  | .assign ref value => by
    have hassign : r.Renames φ (.expr (.assign ref value) (.assign (r.reference φ ref) value)) :=
      .assign h.avoids (value.renames_self h)
    rwa [h.reference_eq] at hassign
  | .call callee _ arguments => .call (callee.renames_self h) (renamesExprs_self h arguments)
  | .function decl => .function (decl.renames_self h)
  | .get object _ => .get (object.renames_self h)
  | .set object _ value => .set (object.renames_self h) (value.renames_self h)
  | .this _ => .this
  | .super _ _ => .super

theorem renamesExprs_self {φ : List Bool} (h : Idle φ) :
    ∀ es : List Expr, r.Renames φ (.exprs es es)
  | [] => .noExprs
  | e :: rest => .moreExprs (e.renames_self h) (renamesExprs_self h rest)

theorem FunctionDecl.renames_self {φ : List Bool} (h : Idle φ) :
    ∀ d : FunctionDecl, r.Renames φ (.decl d d)
  | .mk name line params body => by
    have hdecl : r.Renames φ (.decl (.mk name line params body)
        (.mk name line (params.map (r.declared false)) body)) :=
      .decl (fun _ _ => h.cons.avoids) (renamesStmts_self h.cons body)
    rwa [map_declared_false] at hdecl

theorem Stmt.renames_self {φ : List Bool} (h : Idle φ) : ∀ s : Stmt, r.Renames φ (.stmt s s)
  | .expr value => .exprStmt (value.renames_self h)
  | .print value => .print (value.renames_self h)
  | .var name none => by
    have hvar : r.Renames φ (.stmt (.var name none) (.var (r.declared (here φ) name) none)) :=
      .bareVar h.avoids
    rwa [h.here_eq] at hvar
  | .var name (some value) => by
    have hvar : r.Renames φ
        (.stmt (.var name (some value)) (.var (r.declared (here φ) name) (some value))) :=
      .setVar h.avoids (value.renames_self h)
    rwa [h.here_eq] at hvar
  | .block body => .block (renamesStmts_self h.cons body)
  | .branch condition thenBranch none =>
    .ifThen (condition.renames_self h) (thenBranch.renames_self h)
  | .branch condition thenBranch (some elseBranch) =>
    .ifElse (condition.renames_self h) (thenBranch.renames_self h) (elseBranch.renames_self h)
  | .loop condition body => .loop (condition.renames_self h) (body.renames_self h)
  | .function decl =>
    .functionStmt h.avoids (fun hhere => absurd (h.here_eq ▸ hhere) nofun) (decl.renames_self h)
  | .ret _ none => .bareRet
  | .ret _ (some value) => .ret (value.renames_self h)
  | .classDecl _ none methods =>
    .baseClass h.avoids (fun hhere => absurd (h.here_eq ▸ hhere) nofun)
      (renamesMethods_self h.cons methods)
  | .classDecl name (some up) methods => by
    have hclass : r.Renames φ (.stmt (.classDecl name (some up) methods)
        (.classDecl name (some (r.reference φ up)) methods)) :=
      .derivedClass h.avoids (fun hhere => absurd (h.here_eq ▸ hhere) nofun) h.avoids
        (renamesMethods_self h.cons.cons methods)
    rwa [h.reference_eq] at hclass

theorem renamesStmts_self {φ : List Bool} (h : Idle φ) :
    ∀ ss : List Stmt, r.Renames φ (.stmts ss ss)
  | [] => .noStmts
  | s :: rest => .moreStmts (s.renames_self h) (renamesStmts_self h rest)

theorem renamesMethods_self {φ : List Bool} (h : Idle φ) :
    ∀ ds : List FunctionDecl, r.Renames φ (.methods ds ds)
  | [] => .noMethods
  | d :: rest => .moreMethods (d.renames_self h) (renamesMethods_self h rest)

end

end

end LoxLang
