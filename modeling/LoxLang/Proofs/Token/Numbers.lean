import LoxLang.Syntax.Printed
import LoxLang.Proofs.Decimal.Spacing
import LoxLang.Proofs.Token.Rendering

/-!
The numbers of a text. What spells a number is what expresses one by its digits, so that the tokens of
numbers denote what their lexemes say, rounded. Listings of tokens and printed trees have each their own
way to show this number. They agree on all but the integers from `10 ^ 15` on: trees show all of their
digits and `.0` behind them, listings their shortest digits, padded with zeros, and no point.
-/

namespace LoxLang

open Decimal

/-! ### Spellings -/

/-- Numbers are spelled by the texts that express one by their digits. -/
theorem spells_number_iff {cs : List Char} : Spells .number cs ↔ ∃ q, Expresses cs q := by
  constructor
  · intro h
    obtain ⟨d, tail, rfl, hd, htail⟩ := h.of_number
    cases htail with
    | whole hds =>
        refine ⟨_, d :: tail, [], List.cons_ne_nil _ _, ?_, .inl ⟨rfl, rfl⟩, rfl⟩
        rw [List.append_nil]
        exact List.forall_mem_cons.mpr ⟨hd, hds⟩
    | @point ds es e hds he hes =>
        refine ⟨_, d :: ds, e :: es, List.cons_ne_nil _ _, ?_, .inr ⟨List.cons_ne_nil _ _, rfl⟩, rfl⟩
        rw [List.forall_mem_append, List.forall_mem_cons, List.forall_mem_cons]
        exact ⟨⟨hd, hds⟩, he, hes⟩
  · rintro ⟨q, whole, fraction, hwhole, hdigits, ⟨rfl, rfl⟩ | ⟨hfraction, rfl⟩, -⟩
    · exact (Lexeme.integer cs hwhole (by simpa using hdigits)).spells
    · exact (Lexeme.decimal whole fraction hwhole hfraction hdigits).spells

/-- The lexeme of a number in a text expresses it. -/
theorem expresses_lexeme {source : String} {t : Token} (ht : t ∈ tokensOf (scan source))
    (hkind : t.kind = .number) : ∃ q, Expresses t.lexeme.toList q := by
  have hscanned := scanned_textTokens source
  rw [hscanned.tokens, List.mem_append, List.mem_singleton] at ht
  rcases ht with ht | rfl
  · obtain ⟨text, hmem, htext⟩ := mem_tokensFrom ht
    rw [hkind] at hmem
    rw [htext, String.toList_ofList]
    exact spells_number_iff.mp ((partition_segments _).spells hmem)
  · cases hkind

/-! ### Texts of numbers -/

/-- A finite number is the integer `n`, or its negative. -/
structure IsInteger (x : Float) (n : ℕ) : Prop where
  finite : magnitude x < infinity
  value : value (magnitude x) = n

/-- What is shown of a number without a sign, `listed` in a listing and `printed` in a tree. -/
structure Shown (x : Float) (listed printed : String) : Prop where
  agree : listed = printed ↔ ∀ n, IsInteger x n → n < 10 ^ 15
  integer : ∀ n, IsInteger x n → printed = digitsOf n ++ ".0"
  /-- The digits of a large integer read back, and no point is among them. -/
  large : ∀ n, IsInteger x n → 10 ^ 15 ≤ n →
    (∀ c ∈ listed.toList, c.isDigit) ∧ Rounds (pointed listed.toList) x

section

variable {x : Float} {n : ℕ} {q : ℚ}

theorem isInteger_iff : IsInteger x n ↔
    magnitude x < infinity ∧ isWhole (magnitude x) = true ∧ wholePart (magnitude x) = n := by
  constructor
  · rintro ⟨hfinite, hvalue⟩
    have hwhole := isWhole_iff.mpr ⟨n, hvalue⟩
    rw [value_of_whole hwhole] at hvalue
    exact ⟨hfinite, hwhole, Nat.cast_injective hvalue⟩
  · rintro ⟨hfinite, hwhole, rfl⟩
    exact ⟨hfinite, value_of_whole hwhole⟩

theorem IsInteger.unique {m : ℕ} (h : IsInteger x n) (h' : IsInteger x m) : m = n :=
  Nat.cast_injective (h'.value.symm.trans h.value)

/-- A number without a sign is shown as its magnitude is. -/
theorem Decimal.Rounds.signed_eq (h : Rounds q x) (finite : Nat → String) :
    signed x finite = if magnitude x = infinity then "inf" else finite (magnitude x) := by
  simp only [signed, if_neg (not_lt.mpr h.nearest.le), h.isNegative, Bool.false_eq_true, if_false,
    String.empty_append]

theorem treeNumberText_integer (h : Rounds q x) (hn : IsInteger x n) :
    treeNumberText x = digitsOf n ++ ".0" := by
  obtain ⟨hfinite, hwhole, rfl⟩ := isInteger_iff.mp hn
  rw [treeNumberText, h.signed_eq, if_neg hfinite.ne, if_pos hwhole]
  rfl

/-- What is no integer is shown in the plain layout. -/
theorem treeNumberText_fraction (h : Rounds q x) (hnone : ∀ n, ¬IsInteger x n) :
    treeNumberText x = plain.text x := by
  rw [treeNumberText, Layout.text, h.signed_eq, h.signed_eq]
  split
  case isTrue => rfl
  case isFalse hne =>
    refine if_neg fun hwhole => hnone _ (isInteger_iff.mpr ⟨?_, hwhole, rfl⟩)
    exact lt_of_le_of_ne h.nearest.le hne

theorem numberText_small (h : Rounds q x) (hn : IsInteger x n) (hsmall : n < 10 ^ 15) :
    Token.numberText x = digitsOf n ++ ".0" := by
  obtain ⟨hfinite, hwhole, rfl⟩ := isInteger_iff.mp hn
  have htext : Token.numberText x = (if isNegative x && decide (magnitude x ≠ 0) then "-" else "") ++
      wholeDigits (magnitude x) ++ ".0" := if_pos ⟨hfinite, hwhole, hsmall⟩
  rw [htext, h.isNegative, Bool.false_and, if_neg Bool.false_ne_true, String.empty_append]
  rfl

theorem numberText_plain (h : ∀ n, IsInteger x n → 10 ^ 15 ≤ n) :
    Token.numberText x = plain.text x := by
  refine if_neg ?_
  rintro ⟨hfinite, hwhole, hsmall⟩
  exact absurd (h _ (isInteger_iff.mpr ⟨hfinite, hwhole, rfl⟩)) (Nat.not_le_of_gt hsmall)

/-- A large integer is listed by digits that read back. -/
theorem numberText_large (h : Rounds q x) (hn : IsInteger x n) (hlarge : 10 ^ 15 ≤ n) :
    (∀ c ∈ (Token.numberText x).toList, c.isDigit) ∧ Rounds (pointed (Token.numberText x).toList) x := by
  have htext : Token.numberText x = plain.finiteText (magnitude x) := by
    rw [numberText_plain fun m hm => hn.unique hm ▸ hlarge, Layout.text, h.signed_eq, if_neg hn.finite.ne]
  obtain ⟨q, hnearest, hexpresses⟩ := Layout.expresses_plain h.nearest.le
  rw [htext, hexpresses.pointed]
  exact ⟨isDigit_plain hn.finite (isInteger_iff.mp hn).2.1, h.isNegative, hnearest⟩

theorem shown_number (h : Rounds q x) : Shown x (Token.numberText x) (treeNumberText x) where
  agree := by
    by_cases hinteger : ∃ n, IsInteger x n
    · obtain ⟨n, hn⟩ := hinteger
      rcases Nat.lt_or_ge n (10 ^ 15) with hsmall | hlarge
      · rw [numberText_small h hn hsmall, treeNumberText_integer h hn]
        exact iff_of_true rfl fun m hm => hn.unique hm ▸ hsmall
      · -- The point in the tree tells the two apart.
        refine iff_of_false (fun heq => ?_) fun hall => Nat.not_lt_of_ge hlarge (hall n hn)
        have hdigits := (numberText_large h hn hlarge).1
        rw [heq, treeNumberText_integer h hn, String.toList_append, List.forall_mem_append] at hdigits
        exact absurd (hdigits.2 '.' (by decide)) (by decide)
    · have hnone : ∀ n, ¬IsInteger x n := fun n hn => hinteger ⟨n, hn⟩
      rw [treeNumberText_fraction h hnone, numberText_plain fun n hn => absurd hn (hnone n)]
      exact iff_of_true rfl fun n hn => absurd hn (hnone n)
  integer _ hn := treeNumberText_integer h hn
  large _ hn := numberText_large h hn

end

/-! ### Tokens and trees -/

/-- A token of a number in a text denotes what its lexeme says, and the tree of this token alone is the
number that it denotes. -/
theorem numbers_listed_as_printed (source : String) {t : Token} (ht : t ∈ tokensOf (scan source))
    (hkind : t.kind = .number) :
    ∃ x e listed, Rounds (pointed t.lexeme.toList) x ∧ e = .literal (.number x) ∧
      (∀ r ts i errors, Grammar.primary r ⟨t :: ts, i, errors⟩ = .ok e ⟨ts, i, errors⟩) ∧
      t.display = "NUMBER " ++ t.lexeme ++ " " ++ listed ∧ Shown x listed e.printed := by
  obtain ⟨q, hexpresses⟩ := expresses_lexeme ht hkind
  have hrounds := hexpresses.rounds
  have hpayload : t.payload = some (.number (Decimal.read t.lexeme)) := by
    rw [Token.payload, hkind]
  refine ⟨Decimal.read t.lexeme, _, Token.numberText (Decimal.read t.lexeme), ?_, rfl, ?_, ?_, ?_⟩
  · rw [hexpresses.pointed]
    exact hrounds
  · intro r ts i errors
    rw [Grammar.primary, Grammar.bind_of_ok Grammar.next?_eq]
    simp only [List.head?_cons, hkind]
    rfl
  · rw [Token.display, Token.listing, hpayload, hkind]
    rfl
  · rw [Expr.printed, Literal.printed]
    exact shown_number hrounds

/-- A number between two integers, which is read as the even one of them. -/
theorem numbers_listed_as_printed_rounded :
    ∃ x e listed, Rounds (pointed "9007199254740993.0".toList) x ∧ e = .literal (.number x) ∧
      (∀ r ts i errors, Grammar.primary r ⟨⟨.number, "9007199254740993.0", 1⟩ :: ts, i, errors⟩ =
        .ok e ⟨ts, i, errors⟩) ∧
      (⟨.number, "9007199254740993.0", 1⟩ : Token).display =
        "NUMBER " ++ "9007199254740993.0" ++ " " ++ listed ∧ Shown x listed e.printed :=
  numbers_listed_as_printed "x = 9007199254740993.0;" (t := ⟨.number, "9007199254740993.0", 1⟩)
    (by decide +kernel) rfl

/-- The first integer that is shown in two ways. -/
theorem listing_unlike_tree :
    ¬∀ (source : String) (t : Token), t ∈ tokensOf (scan source) → t.kind = .number →
      ∀ listed e, t.display = "NUMBER " ++ t.lexeme ++ " " ++ listed →
        (∀ r ts i errors, Grammar.primary r ⟨t :: ts, i, errors⟩ = .ok e ⟨ts, i, errors⟩) →
        listed = e.printed := by
  intro h
  have hsame := h "1000000000000000" ⟨.number, "1000000000000000", 1⟩ (by decide +kernel) rfl
    "1000000000000000" (.literal (.number (Decimal.read "1000000000000000"))) (by decide +kernel)
    fun _ _ _ _ => rfl
  exact absurd hsame (by decide +kernel)

end LoxLang
