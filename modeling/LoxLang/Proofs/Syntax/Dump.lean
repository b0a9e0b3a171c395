import LoxLang.Proofs.Json
import LoxLang.Proofs.Scope.Law
import LoxLang.Syntax.Dump
import LoxLang.Syntax.Same

/-!
Trees and their JSON. Every part of a tree can be told from what is written for it, tokens and
identities included. Equality of numbers is not equality of their texts where a number is minus zero or
none at all; in trees without such numbers, trees are equal just if they are written the same, in
whatever format of numbers.
-/

namespace LoxLang

open Scope

variable {fmt : Decimal.Format}

/-! ### Tokens -/

namespace Json

variable {kind kind' : String} {j j' : Json}

@[simp]
theorem compactBy_tagged_iff :
    (tagged kind j).compactBy fmt.text = (tagged kind' j').compactBy fmt.text ↔
      kind = kind' ∧ j.compactBy fmt.text = j'.compactBy fmt.text := by
  simp [tagged, compactBy_object_iff]

theorem compactBy_ne_of_opening (h : j.opening ≠ j'.opening) :
    j.compactBy fmt.text ≠ j'.compactBy fmt.text :=
  fun heq => h (opening_of_compactBy heq)

@[simp]
theorem compactBy_null_ne (h : j.opening = some '{') :
    null.compactBy fmt.text ≠ j.compactBy fmt.text := by
  apply compactBy_ne_of_opening
  rw [h]
  nofun

@[simp]
theorem compactBy_ne_null (h : j.opening = some '{') :
    j.compactBy fmt.text ≠ null.compactBy fmt.text :=
  (compactBy_null_ne h).symm

@[simp]
theorem compactBy_text_ne_tagged (s : String) :
    (text s).compactBy fmt.text ≠ (tagged kind j).compactBy fmt.text :=
  compactBy_ne_of_opening (by simp [tagged, opening])

@[simp]
theorem compactBy_tagged_ne_text (s : String) :
    (tagged kind j).compactBy fmt.text ≠ (text s).compactBy fmt.text :=
  compactBy_ne_of_opening (by simp [tagged, opening])

end Json

theorem Kind.ofName?_name (kind : Kind) : ofName? kind.name = some kind := by
  cases kind <;> rfl

namespace Token

variable {t u : Token}

theorem kindJson_cases (t : Token) :
    t.kindJson = .text t.kind.name ∨ ∃ j, t.kindJson = .tagged t.kind.name j := by
  unfold kindJson
  split
  · exact .inl rfl
  · exact .inr ⟨_, rfl⟩
  · exact .inr ⟨_, rfl⟩

theorem kind_of_kindJson (h : t.kindJson.compactBy fmt.text = u.kindJson.compactBy fmt.text) :
    t.kind = u.kind := by
  have hname : t.kind.name = u.kind.name := by
    rcases t.kindJson_cases with ht | ⟨j, ht⟩ <;> rcases u.kindJson_cases with hu | ⟨k, hu⟩
    · rwa [ht, hu, Json.compactBy_text_iff] at h
    · simp [ht, hu] at h
    · simp [ht, hu] at h
    · rw [ht, hu, Json.compactBy_tagged_iff] at h
      exact h.1
  rw [← Option.some_inj, ← Kind.ofName?_name t.kind, hname, Kind.ofName?_name]

@[simp]
theorem opening_toJson (t : Token) : t.toJson.opening = some '{' := by
  simp [toJson, Json.opening]

@[simp]
theorem compactBy_toJson_iff : t.toJson.compactBy fmt.text = u.toJson.compactBy fmt.text ↔ t = u := by
  constructor
  · intro h
    simp only [toJson, Json.compactBy_object_iff, Json.compactBy_text_iff, Json.compactBy_natural_iff,
      List.map_cons, List.map_nil, List.cons.injEq, Prod.mk.injEq, true_and, and_true] at h
    obtain ⟨hkindJson, hlexeme, hline⟩ := h
    have hkind := kind_of_kindJson hkindJson
    cases t
    cases u
    simp_all
  · intro h
    rw [h]

end Token

@[simp]
theorem Token.compactBy_params_iff {ps qs : List Token} :
    (Json.array (ps.map toJson)).compactBy fmt.text =
      (Json.array (qs.map toJson)).compactBy fmt.text ↔ ps = qs := by
  induction ps generalizing qs with
  | nil => cases qs <;> simp
  | cons p ps ih => cases qs <;> simp [ih]

theorem Reference.eq_iff {r s : Reference} : r = s ↔ r.id.toNat = s.id.toNat ∧ r.name = s.name := by
  cases r
  cases s
  simp [UInt64.toNat_inj]

@[simp]
theorem Reference.opening_toJson (r : Reference) : r.toJson.opening = some '{' := by
  simp [toJson, Json.tagged, Json.opening]

@[simp]
theorem Reference.compactBy_toJson_iff {r s : Reference} :
    r.toJson.compactBy fmt.text = s.toJson.compactBy fmt.text ↔ r = s := by
  simp [toJson, Json.compactBy_object_iff, eq_iff]

/-! ### Literals -/

/-- A number that is not negative, nor minus zero, nor other than a number. -/
def IsUnsigned (x : Float) : Prop :=
  ∃ mag ≤ Decimal.infinity, x = Decimal.ofMagnitude mag

theorem isUnsigned_read (text : String) : IsUnsigned (Decimal.read text) :=
  ⟨_, Decimal.nearest_le (Nat.pow_pos (by decide)), rfl⟩

def Literal.IsUnsigned : Literal → Prop
  | .number x => LoxLang.IsUnsigned x
  | _ => True

theorem Literal.same_iff {a b : Literal} (ha : a.IsUnsigned) (hb : b.IsUnsigned) :
    a.same b = true ↔ a.toJson.compactBy fmt.text = b.toJson.compactBy fmt.text := by
  cases a with
  | number x =>
      cases b with
      | number y =>
          obtain ⟨mag, hmag, rfl⟩ := ha
          obtain ⟨mag', hmag', rfl⟩ := hb
          simp only [same, toJson, Json.compactBy_tagged_iff, true_and]
          rw [Decimal.beq_ofMagnitude hmag hmag', Json.compactBy_real_iff hmag hmag']
      | bool b => cases b <;> simp [same, toJson]
      | _ => simp [same, toJson]
  | text s =>
      cases b with
      | bool b => cases b <;> simp [same, toJson]
      | _ => simp [same, toJson]
  | bool a =>
      cases b with
      | bool b => cases a <;> cases b <;> simp [same, toJson]
      | _ => cases a <;> simp [same, toJson]
  | nil =>
      cases b with
      | bool b => cases b <;> simp [same, toJson]
      | _ => simp [same, toJson]

/-! ### Trees -/

/-- The law that numbers are not negative. -/
def Law.unsigned : Law where
  node node _ :=
    match node with
    | .expr (.literal value) => value.IsUnsigned
    | _ => True
  function _ _ := True

theorem Stmt.Obeys.initializer {law : Law} {k : ClassKind} {n : Token} {a : Option Expr}
    (h : (Stmt.var n a).Obeys law k) : ∀ e ∈ a, e.Obeys law k := by
  cases a with
  | none => nofun
  | some value =>
      rintro _ ⟨⟩
      exact h.2

theorem Stmt.Obeys.value {law : Law} {k : ClassKind} {keyword : Token} {a : Option Expr}
    (h : (Stmt.ret keyword a).Obeys law k) : ∀ e ∈ a, e.Obeys law k := by
  cases a with
  | none => nofun
  | some value =>
      rintro _ ⟨⟩
      exact h.2

/-- The kind that an expression is dumped as. -/
def Expr.label : Expr → String
  | .literal _ => "Literal"
  | .group _ => "Grouping"
  | .unary _ _ => "Unary"
  | .binary _ _ _ => "Binary"
  | .logical _ _ _ => "Logical"
  | .ident _ => "Variable"
  | .assign _ _ => "Assign"
  | .call _ _ _ => "Call"
  | .function _ => "Function"
  | .get _ _ => "Get"
  | .set _ _ _ => "Set"
  | .this _ => "This"
  | .super _ _ => "Super"

/-- The kind that a statement is dumped as. -/
def Stmt.label : Stmt → String
  | .expr _ => "Expression"
  | .print _ => "Print"
  | .var _ _ => "Var"
  | .block _ => "Block"
  | .branch _ _ _ => "If"
  | .loop _ _ => "While"
  | .function _ => "Function"
  | .ret _ _ => "Return"
  | .classDecl _ _ _ => "Class"

theorem Expr.toJson_label (e : Expr) : ∃ content, e.toJson = .tagged e.label content := by
  cases e <;> exact ⟨_, rfl⟩

theorem Stmt.toJson_label (s : Stmt) : ∃ content, s.toJson = .tagged s.label content := by
  cases s with
  | branch _ _ elseBranch => cases elseBranch <;> exact ⟨_, rfl⟩
  | _ => exact ⟨_, rfl⟩

/-- Expressions of two kinds are neither equal nor written the same. -/
theorem Expr.same_iff_of_label {a b : Expr} (h : a.label ≠ b.label) :
    a.same b = true ↔ a.toJson.compactBy fmt.text = b.toJson.compactBy fmt.text := by
  apply iff_of_false
  · intro hsame
    revert h
    fun_cases Expr.same a b <;> simp_all [label, Expr.same]
  · obtain ⟨j, hj⟩ := a.toJson_label
    obtain ⟨k, hk⟩ := b.toJson_label
    simp [hj, hk, h]

/-- Statements of two kinds are neither equal nor written the same. -/
theorem Stmt.same_iff_of_label {a b : Stmt} (h : a.label ≠ b.label) :
    a.same b = true ↔ a.toJson.compactBy fmt.text = b.toJson.compactBy fmt.text := by
  apply iff_of_false
  · intro hsame
    revert h
    fun_cases Stmt.same a b <;> simp_all [label, Stmt.same]
  · obtain ⟨j, hj⟩ := a.toJson_label
    obtain ⟨k, hk⟩ := b.toJson_label
    simp [hj, hk, h]

@[simp]
theorem Expr.opening_toJson (e : Expr) : e.toJson.opening = some '{' := by
  obtain ⟨content, h⟩ := e.toJson_label
  rw [h]
  rfl

@[simp]
theorem Stmt.opening_toJson (s : Stmt) : s.toJson.opening = some '{' := by
  obtain ⟨content, h⟩ := s.toJson_label
  rw [h]
  rfl

mutual

/-- Expressions are equal just if they are written the same. -/
theorem Expr.same_iff : ∀ (a b : Expr) {k k' : ClassKind}, a.Obeys .unsigned k →
    b.Obeys .unsigned k' →
      (a.same b = true ↔ a.toJson.compactBy fmt.text = b.toJson.compactBy fmt.text)
  | .literal x, b, k, k', ha, hb => by
      cases b with
      | literal y => simpa [Expr.same, Expr.toJson] using Literal.same_iff ha.1 hb.1
      | _ => exact Expr.same_iff_of_label (by simp [Expr.label])
  | .group a, b, k, k', ha, hb => by
      cases b with
      | group b => simpa [Expr.same, Expr.toJson] using a.same_iff b ha.2 hb.2
      | _ => exact Expr.same_iff_of_label (by simp [Expr.label])
  | .unary o a, b, k, k', ha, hb => by
      cases b with
      | unary p b => simp [Expr.same, Expr.toJson, Json.compactBy_object_iff, a.same_iff b ha.2 hb.2]
      | _ => exact Expr.same_iff_of_label (by simp [Expr.label])
  | .binary a o c, b, k, k', ha, hb => by
      cases b with
      | binary b p d =>
          simp [Expr.same, Expr.toJson, Json.compactBy_object_iff, a.same_iff b ha.2.1 hb.2.1,
            c.same_iff d ha.2.2 hb.2.2, and_assoc]
      | _ => exact Expr.same_iff_of_label (by simp [Expr.label])
  | .logical a o c, b, k, k', ha, hb => by
      cases b with
      | logical b p d =>
          simp [Expr.same, Expr.toJson, Json.compactBy_object_iff, a.same_iff b ha.2.1 hb.2.1,
            c.same_iff d ha.2.2 hb.2.2, and_assoc]
      | _ => exact Expr.same_iff_of_label (by simp [Expr.label])
  | .ident r, b, k, k', ha, hb => by
      cases b with
      | ident s => simp [Expr.same, Expr.toJson]
      | _ => exact Expr.same_iff_of_label (by simp [Expr.label])
  | .assign r a, b, k, k', ha, hb => by
      cases b with
      | assign s b =>
          simp [Expr.same, Expr.toJson, Json.compactBy_object_iff, a.same_iff b ha.2 hb.2,
            Reference.eq_iff, and_assoc]
      | _ => exact Expr.same_iff_of_label (by simp [Expr.label])
  | .call a p as, b, k, k', ha, hb => by
      cases b with
      | call b q bs =>
          simp [Expr.same, Expr.toJson, Json.compactBy_object_iff, a.same_iff b ha.2.1 hb.2.1,
            sameExprs_iff as bs ha.2.2 hb.2.2, and_assoc]
      | _ => exact Expr.same_iff_of_label (by simp [Expr.label])
  | .function d, b, k, k', ha, hb => by
      cases b with
      | function e => simpa [Expr.same, Expr.toJson] using d.same_iff e ha.2 hb.2
      | _ => exact Expr.same_iff_of_label (by simp [Expr.label])
  | .get a n, b, k, k', ha, hb => by
      cases b with
      | get b m => simp [Expr.same, Expr.toJson, Json.compactBy_object_iff, a.same_iff b ha.2 hb.2]
      | _ => exact Expr.same_iff_of_label (by simp [Expr.label])
  | .set a n c, b, k, k', ha, hb => by
      cases b with
      | set b m d =>
          simp [Expr.same, Expr.toJson, Json.compactBy_object_iff, a.same_iff b ha.2.1 hb.2.1,
            c.same_iff d ha.2.2 hb.2.2, and_assoc]
      | _ => exact Expr.same_iff_of_label (by simp [Expr.label])
  | .this r, b, k, k', ha, hb => by
      cases b with
      | this s => simp [Expr.same, Expr.toJson, Json.compactBy_object_iff, Reference.eq_iff]
      | _ => exact Expr.same_iff_of_label (by simp [Expr.label])
  | .super r n, b, k, k', ha, hb => by
      cases b with
      | super s m =>
          simp [Expr.same, Expr.toJson, Json.compactBy_object_iff, Reference.eq_iff, and_assoc]
      | _ => exact Expr.same_iff_of_label (by simp [Expr.label])
termination_by structural x => x

theorem sameExprs_iff : ∀ (as bs : List Expr) {k k' : ClassKind}, ObeysExprs .unsigned k as →
    ObeysExprs .unsigned k' bs → (sameExprs as bs = true ↔
      (Json.array (exprsToJson as)).compactBy fmt.text =
        (Json.array (exprsToJson bs)).compactBy fmt.text)
  | [], bs, k, k', _, hb => by
      cases bs <;> simp [sameExprs, exprsToJson]
  | a :: as, bs, k, k', ha, hb => by
      cases bs with
      | nil => simp [sameExprs, exprsToJson]
      | cons b bs =>
          simp [sameExprs, exprsToJson, a.same_iff b ha.1 hb.1, sameExprs_iff as bs ha.2 hb.2]
termination_by structural x => x

theorem FunctionDecl.same_iff : ∀ (d e : FunctionDecl) {k k' : ClassKind} {i i' : Bool},
    d.Obeys .unsigned k i → e.Obeys .unsigned k' i' →
      (d.same e = true ↔ d.toJson.compactBy fmt.text = e.toJson.compactBy fmt.text)
  | .mk n l ps b, .mk m k qs c, _, _, _, _, hd, he => by
      cases n <;> cases m <;>
        simp [FunctionDecl.same, FunctionDecl.toJson, Json.compactBy_object_iff,
          sameStmts_iff b c hd.2 he.2, and_assoc]
termination_by structural x => x

theorem Stmt.same_iff : ∀ (a b : Stmt) {k k' : ClassKind}, a.Obeys .unsigned k →
    b.Obeys .unsigned k' →
      (a.same b = true ↔ a.toJson.compactBy fmt.text = b.toJson.compactBy fmt.text)
  | .expr a, b, k, k', ha, hb => by
      cases b with
      | expr b => simpa [Stmt.same, Stmt.toJson] using a.same_iff b ha.2 hb.2
      | _ => exact Stmt.same_iff_of_label (by simp [Stmt.label])
  | .print a, b, k, k', ha, hb => by
      cases b with
      | print b => simpa [Stmt.same, Stmt.toJson] using a.same_iff b ha.2 hb.2
      | _ => exact Stmt.same_iff_of_label (by simp [Stmt.label])
  | .var n a, b, k, k', ha, hb => by
      cases b with
      | var m b =>
          simp [Stmt.same, Stmt.toJson, Json.compactBy_object_iff,
            sameOption_iff a b ha.initializer hb.initializer]
      | _ => exact Stmt.same_iff_of_label (by simp [Stmt.label])
  | .block as, b, k, k', ha, hb => by
      cases b with
      | block bs => simpa [Stmt.same, Stmt.toJson] using sameStmts_iff as bs ha.2 hb.2
      | _ => exact Stmt.same_iff_of_label (by simp [Stmt.label])
  | .branch a s none, b, k, k', ha, hb => by
      cases b with
      | branch b u v =>
          cases v with
          | none =>
              simp [Stmt.same, Stmt.toJson, sameElse, Json.compactBy_object_iff,
                a.same_iff b ha.2.1 hb.2.1, s.same_iff u ha.2.2 hb.2.2]
          | some v => simp [Stmt.same, Stmt.toJson, sameElse, Json.compactBy_object_iff]
      | _ => exact Stmt.same_iff_of_label (by simp [Stmt.label])
  | .branch a s (some t), b, k, k', ha, hb => by
      cases b with
      | branch b u v =>
          cases v with
          | none => simp [Stmt.same, Stmt.toJson, sameElse, Json.compactBy_object_iff]
          | some v =>
              simp [Stmt.same, Stmt.toJson, sameElse, Json.compactBy_object_iff,
                a.same_iff b ha.2.1 hb.2.1, s.same_iff u ha.2.2.1 hb.2.2.1,
                t.same_iff v ha.2.2.2 hb.2.2.2, and_assoc]
      | _ => exact Stmt.same_iff_of_label (by simp [Stmt.label])
  | .loop a s, b, k, k', ha, hb => by
      cases b with
      | loop b u =>
          simp [Stmt.same, Stmt.toJson, Json.compactBy_object_iff, a.same_iff b ha.2.1 hb.2.1,
            s.same_iff u ha.2.2 hb.2.2]
      | _ => exact Stmt.same_iff_of_label (by simp [Stmt.label])
  | .function d, b, k, k', ha, hb => by
      cases b with
      | function e => simpa [Stmt.same, Stmt.toJson] using d.same_iff e ha.2 hb.2
      | _ => exact Stmt.same_iff_of_label (by simp [Stmt.label])
  | .ret n a, b, k, k', ha, hb => by
      cases b with
      | ret m b =>
          simp [Stmt.same, Stmt.toJson, Json.compactBy_object_iff,
            sameOption_iff a b ha.value hb.value]
      | _ => exact Stmt.same_iff_of_label (by simp [Stmt.label])
  | .classDecl n r ds, b, k, k', ha, hb => by
      cases b with
      | classDecl m r' es =>
          cases r <;> cases r' <;>
            simp [Stmt.same, Stmt.toJson, Json.compactBy_object_iff, sameDecls_iff ds es ha.2 hb.2,
              and_assoc]
      | _ => exact Stmt.same_iff_of_label (by simp [Stmt.label])
termination_by structural x => x

theorem sameOption_iff : ∀ (a b : Option Expr) {k k' : ClassKind},
    (∀ e ∈ a, e.Obeys .unsigned k) → (∀ e ∈ b, e.Obeys .unsigned k') →
      (sameOption a b = true ↔
        (optionToJson a).compactBy fmt.text = (optionToJson b).compactBy fmt.text)
  | none, b, k, k', ha, hb => by
      cases b <;> simp [sameOption, optionToJson]
  | some a, b, k, k', ha, hb => by
      cases b with
      | none => simp [sameOption, optionToJson]
      | some b => simp [sameOption, optionToJson, a.same_iff b (ha a rfl) (hb b rfl)]
termination_by structural x => x

theorem sameStmts_iff : ∀ (as bs : List Stmt) {k k' : ClassKind}, ObeysStmts .unsigned k as →
    ObeysStmts .unsigned k' bs → (sameStmts as bs = true ↔
      (Json.array (stmtsToJson as)).compactBy fmt.text =
        (Json.array (stmtsToJson bs)).compactBy fmt.text)
  | [], bs, k, k', _, hb => by
      cases bs <;> simp [sameStmts, stmtsToJson]
  | a :: as, bs, k, k', ha, hb => by
      cases bs with
      | nil => simp [sameStmts, stmtsToJson]
      | cons b bs =>
          simp [sameStmts, stmtsToJson, a.same_iff b ha.1 hb.1, sameStmts_iff as bs ha.2 hb.2]
termination_by structural x => x

theorem sameDecls_iff : ∀ (ds es : List FunctionDecl) {k k' : ClassKind},
    ObeysMethods .unsigned k ds → ObeysMethods .unsigned k' es → (sameDecls ds es = true ↔
      (Json.array (declsToJson ds)).compactBy fmt.text =
        (Json.array (declsToJson es)).compactBy fmt.text)
  | [], es, k, k', _, hb => by
      cases es <;> simp [sameDecls, declsToJson]
  | d :: ds, es, k, k', hd, he => by
      cases es with
      | nil => simp [sameDecls, declsToJson]
      | cons e es =>
          simp [sameDecls, declsToJson, d.same_iff e hd.1 he.1, sameDecls_iff ds es hd.2 he.2]
termination_by structural x => x

end

end LoxLang
