import LoxLang.Decimal.Layout
import LoxLang.Proofs.Decimal.Bits

/-!
Texts of numbers. A format writes a finite number as a decimal number to which its magnitude is the
nearest, so that no two magnitudes share a text. Layouts are such formats: the digits are those of a
numeral that reads back, and they are laid out so that their text expresses the same number, whether by
zeros, by a point or by an exponent.
-/

namespace LoxLang.Decimal

/-! ### Numerals -/

namespace Numeral

def value (n : Numeral) : ℚ :=
  n.digits * 10 ^ n.exponent

theorem value_eq_div (n : Numeral) : n.value = n.numerator / n.denominator := by
  simp only [value, numerator, denominator, Nat.pow_eq]
  push_cast
  rw [← zpow_natCast, ← zpow_natCast, mul_div_assoc, ← zpow_sub₀ (by decide)]
  congr
  omega

theorem nearest_reading (n : Numeral) : Nearest n.value n.reading := by
  rw [value_eq_div]
  exact nearest_nearest (Nat.pow_pos (by decide))

@[simp]
theorem value_trimmed (n : Numeral) : n.trimmed.value = n.value := by
  unfold trimmed
  split
  case isTrue h =>
    have hdigits : n.digits = 10 * (n.digits / 10) := by omega
    simp only [value]
    rw [zpow_add_one₀ (by decide)]
    conv_rhs => rw [hdigits]
    push_cast
    ring
  case isFalse => rfl

end Numeral

theorem mul_pow_five (u k : Nat) :
    ((u * Nat.pow 5 k : Nat) : ℚ) * 10 ^ (-(k : ℤ)) = u / (Nat.pow 2 k : Nat) := by
  have hten : (10 : ℚ) ^ k = 2 ^ k * 5 ^ k := by
    rw [← mul_pow]
    congr 1
    ring
  simp only [Nat.pow_eq]
  rw [zpow_neg, zpow_natCast, hten]
  push_cast
  field_simp

/-- The exact expansion of a magnitude is its number. -/
theorem value_exact (mag : Nat) : (exact mag).value = value mag := by
  unfold exact Numeral.value value one
  exact mul_pow_five (units mag) 1074

/-- What is found on a grid is one of the two points around the number, and reads back. -/
theorem onGrid_eq_some {tie : Tie} {mag : Nat} {e : Int} {n : Numeral}
    (h : onGrid tie mag e = some n) :
    n.reading = mag ∧ (n = ⟨floorOn mag e, e⟩ ∨ n = ⟨floorOn mag e + 1, e⟩) := by
  unfold onGrid at h
  extract_lets low high at h
  split at h
  case h_1 first second hpair =>
    have hpoints : (first = low ∨ first = high) ∧ (second = low ∨ second = high) := by
      split at hpair
      · cases hpair
        exact ⟨.inr rfl, .inl rfl⟩
      · cases hpair
        exact ⟨.inl rfl, .inr rfl⟩
    split at h
    case isTrue hfirst =>
      obtain rfl := Option.some.inj h
      exact ⟨hfirst, hpoints.1⟩
    split at h
    case isTrue hsecond =>
      obtain rfl := Option.some.inj h
      exact ⟨hsecond, hpoints.2⟩
    case isFalse => cases h

/-- `shortest` as a function, since the kernel would compute the search on any other way to open it. -/
theorem shortest_def : shortest = fun tie mag =>
    match (List.range 17).findSome? fun (i : Nat) => onGrid tie mag (order mag - i) with
    | some n => n.trimmed
    | none => exact mag := rfl

/-- The search stops at the first grid that has the number. -/
theorem shortest_cases (tie : Tie) (mag : Nat) :
    (∃ i n, i < 17 ∧ onGrid tie mag (order mag - (i : Nat)) = some n ∧
      (∀ j < i, onGrid tie mag (order mag - (j : Nat)) = none) ∧ shortest tie mag = n.trimmed) ∨
    (∀ j < 17, onGrid tie mag (order mag - (j : Nat)) = none) ∧ shortest tie mag = exact mag := by
  rw [shortest_def]
  dsimp only
  generalize hfound : List.findSome? _ _ = found
  cases found with
  | some n =>
      obtain ⟨before, i, behind, hrange, hgrid, hnone⟩ := List.findSome?_eq_some_iff.mp hfound
      have hsorted : (before ++ i :: behind).Pairwise (· < ·) := hrange ▸ List.pairwise_lt_range
      have hall : ∀ j, j ∈ before ++ i :: behind ↔ j < 17 := fun j => hrange ▸ List.mem_range
      have hi : i < 17 := (hall i).mp (List.mem_append_right _ (List.mem_cons_self ..))
      refine .inl ⟨i, n, hi, hgrid, fun j hj => ?_, rfl⟩
      rcases List.mem_append.mp ((hall j).mpr (hj.trans hi)) with hbefore | hrest
      · exact hnone j hbefore
      · have htail := (List.pairwise_append.mp hsorted).2.1
        rcases List.mem_cons.mp hrest with rfl | hbehind
        · exact absurd hj (lt_irrefl j)
        · exact absurd (List.rel_of_pairwise_cons htail hbehind) (not_lt_of_gt hj)
  | none =>
      rw [List.findSome?_eq_none_iff] at hfound
      exact .inr ⟨fun j hj => hfound j (List.mem_range.mpr hj), rfl⟩

/-- The digits of a number read back. -/
theorem nearest_shortest (tie : Tie) {mag : Nat} (h : mag ≤ infinity) :
    Nearest (shortest tie mag).value mag := by
  rcases shortest_cases tie mag with ⟨i, n, -, hgrid, -, hn⟩ | ⟨-, hexact⟩
  · rw [hn, n.value_trimmed, ← (onGrid_eq_some hgrid).1]
    exact n.nearest_reading
  · rw [hexact, value_exact]
    exact .self h

/-! ### Reading a text -/

/-- The number that a text of digits denotes, with a point in it or without. -/
def pointed (cs : List Char) : ℚ :=
  let whole := cs.takeWhile Char.isDigit
  let fraction := (cs.dropWhile Char.isDigit).drop 1
  Nat.ofDigitChars 10 (whole ++ fraction) 0 / 10 ^ fraction.length

/-- The integer that a text of digits denotes, behind a sign or without one. -/
def integerOf : List Char → ℤ
  | '-' :: ds => -(Nat.ofDigitChars 10 ds 0 : Nat)
  | '+' :: ds => (Nat.ofDigitChars 10 ds 0 : Nat)
  | ds => (Nat.ofDigitChars 10 ds 0 : Nat)

/-- The number that a text denotes in decimal notation, with an exponent behind an `e` or an `E`, or
without one. -/
def denoted (cs : List Char) : ℚ :=
  pointed (cs.takeWhile (· ∉ ['e', 'E'])) * 10 ^ integerOf ((cs.dropWhile (· ∉ ['e', 'E'])).drop 1)

/-- A text expresses a number by its digits alone, with a point between two of them or without one. -/
def Expresses (cs : List Char) (q : ℚ) : Prop :=
  ∃ whole fraction, whole ≠ [] ∧ (∀ c ∈ whole ++ fraction, c.isDigit) ∧
    (cs = whole ∧ fraction = [] ∨ fraction ≠ [] ∧ cs = whole ++ '.' :: fraction) ∧
    q = Nat.ofDigitChars 10 (whole ++ fraction) 0 / 10 ^ fraction.length

/-- An exponent is written with digits, behind a sign or without one. -/
def IsExponent (ds : List Char) : Prop :=
  ∃ sign digits, sign ∈ [[], ['+'], ['-']] ∧ digits ≠ [] ∧ (∀ c ∈ digits, c.isDigit) ∧
    ds = sign ++ digits

/-- A text writes a number that is not negative: it expresses it, or it has an exponent behind what it
expresses. -/
inductive Writes : List Char → ℚ → Prop
  | plain {cs : List Char} {q : ℚ} (h : Expresses cs q) : Writes cs q
  | scientific {cs ds : List Char} {q : ℚ} {mark : Char} (h : Expresses cs q)
      (hmark : mark ∈ ['e', 'E']) (hexponent : IsExponent ds) :
      Writes (cs ++ mark :: ds) (q * 10 ^ integerOf ds)

section

variable {cs ds : List Char} {q : ℚ}

theorem Expresses.pointed (h : Expresses cs q) : pointed cs = q := by
  obtain ⟨whole, fraction, -, hdigits, hcs, rfl⟩ := h
  have hsplit := takeWhile_isDigit (List.forall_mem_append.mp hdigits).1 (hcs.imp_right And.right)
  obtain ⟨htake, hdrop⟩ := hsplit
  simp only [Decimal.pointed, htake, hdrop]

theorem Expresses.ne_nil (h : Expresses cs q) : cs ≠ [] := by
  obtain ⟨whole, fraction, hwhole, -, ⟨rfl, -⟩ | ⟨-, rfl⟩, -⟩ := h
  · exact hwhole
  · simp

theorem Expresses.mem (h : Expresses cs q) {c : Char} (hc : c ∈ cs) : c.isDigit ∨ c = '.' := by
  obtain ⟨whole, fraction, -, hdigits, ⟨rfl, rfl⟩ | ⟨-, rfl⟩, -⟩ := h
  · exact .inl (hdigits c (by simpa using hc))
  · simp only [List.mem_append, List.mem_cons] at hc hdigits
    rcases hc with hc | rfl | hc
    · exact .inl (hdigits c (.inl hc))
    · exact .inr rfl
    · exact .inl (hdigits c (.inr hc))

theorem Expresses.not_mark (h : Expresses cs q) :
    ∀ c ∈ cs, decide (c ∉ ['e', 'E']) = true := by
  intro c hc
  rw [decide_eq_true_iff]
  intro hmark
  rcases List.mem_pair.mp hmark with rfl | rfl <;> exact absurd (h.mem hc) (by decide)

theorem IsExponent.mem (h : IsExponent ds) {c : Char} (hc : c ∈ ds) :
    c.isDigit ∨ c ∈ ['+', '-'] := by
  obtain ⟨sign, digits, hsign, -, hdigits, rfl⟩ := h
  rcases List.mem_append.mp hc with hc | hc
  · right
    fin_cases hsign <;> simp_all
  · exact .inl (hdigits c hc)

namespace Writes

theorem denoted (h : Writes cs q) : denoted cs = q := by
  cases h with
  | plain h =>
      rw [Decimal.denoted, List.takeWhile_eq_self_iff.mpr h.not_mark,
        List.dropWhile_eq_nil_iff.mpr h.not_mark, h.pointed]
      simp [integerOf]
  | scientific h hmark =>
      rw [Decimal.denoted, List.takeWhile_append_of_pos h.not_mark,
        List.dropWhile_append_of_pos h.not_mark]
      rcases List.mem_pair.mp hmark with rfl | rfl <;> simp [h.pointed]

theorem ne_nil (h : Writes cs q) : cs ≠ [] := by
  cases h with
  | plain h => exact h.ne_nil
  | scientific => simp

/-- The characters that numbers are written with. -/
theorem mem (h : Writes cs q) {c : Char} (hc : c ∈ cs) :
    c.isDigit ∨ c ∈ ['.', 'e', 'E', '+', '-'] := by
  cases h with
  | plain h => exact (h.mem hc).imp_right (by simp +contextual)
  | scientific h hmark hexponent =>
      rcases List.mem_append.mp hc with hc | hc
      · exact (h.mem hc).imp_right (by simp +contextual)
      rcases List.mem_cons.mp hc with rfl | hc
      · exact .inr (by fin_cases hmark <;> decide)
      · exact (hexponent.mem hc).imp_right (by simp +contextual)

end Writes

theorem isDigit_toDigits (n : Nat) : ∀ c ∈ Nat.toDigits 10 n, c.isDigit :=
  fun _ hc => Nat.isDigit_of_mem_toDigits (by decide) (by decide) hc

theorem integerOf_of_isDigit (h : ∀ c ∈ ds, c.isDigit) :
    integerOf ds = (Nat.ofDigitChars 10 ds 0 : Nat) := by
  unfold integerOf
  split
  · exact absurd (h '-' (by simp)) (by decide)
  · exact absurd (h '+' (by simp)) (by decide)
  · rfl

theorem integerOf_exponentText (plus : Bool) (e : Int) :
    integerOf (exponentText plus e).toList = e := by
  unfold exponentText digitsOf
  split
  case isTrue hneg =>
    have hminus : "-".toList = ['-'] := rfl
    simp only [String.toList_append, String.toList_ofList, hminus, List.singleton_append, integerOf,
      Nat.ofDigitChars_ten_toDigits]
    omega
  case isFalse hpos =>
    have hread : integerOf (Nat.toDigits 10 e.toNat) = e := by
      rw [integerOf_of_isDigit (isDigit_toDigits _), Nat.ofDigitChars_ten_toDigits]
      omega
    cases plus with
    | true =>
        rw [integerOf_of_isDigit (isDigit_toDigits _)] at hread
        simpa [integerOf] using hread
    | false => simpa using hread

theorem isExponent_exponentText (plus : Bool) (e : Int) : IsExponent (exponentText plus e).toList := by
  unfold exponentText digitsOf
  split
  case isTrue =>
    exact ⟨['-'], Nat.toDigits 10 (-e).toNat, by simp, Nat.toDigits_ne_nil, isDigit_toDigits _, by simp⟩
  case isFalse =>
    refine ⟨if plus then ['+'] else [], Nat.toDigits 10 e.toNat, ?_, Nat.toDigits_ne_nil,
      isDigit_toDigits _, ?_⟩ <;> cases plus <;> simp

theorem Expresses.rounds {text : String} (h : Expresses text.toList q) : Rounds q (read text) := by
  obtain ⟨whole, fraction, -, hdigits, hcs, rfl⟩ := h
  exact rounds_read (List.forall_mem_append.mp hdigits).1 (hcs.imp_right And.right)

/-- A text that expresses what is nearest to a number is read as this number. -/
theorem Expresses.read {mag : Nat} {text : String} (h : Expresses text.toList q)
    (hnearest : Nearest q mag) : read text = ofMagnitude mag := by
  obtain ⟨whole, fraction, -, hdigits, hcs, rfl⟩ := h
  have hread := nearest_readMagnitude (List.forall_mem_append.mp hdigits).1 (hcs.imp_right And.right)
  rw [Decimal.read, hread.unique hnearest]

/-! ### Writing a numeral -/

theorem toList_zeros (n : Nat) : (zeros n).toList = List.replicate n '0' :=
  String.toList_ofList

theorem Numeral.value_of_neg {n : Numeral} {k : Nat} (h : n.exponent = -(k : ℤ)) :
    n.value = n.digits / 10 ^ k := by
  rw [value, h, zpow_neg, zpow_natCast, div_eq_mul_inv]

/-- Positional notation expresses the numeral, a whole one also with a further zero behind the point. -/
theorem expresses_positional (n : Numeral) (keepsPoint : Bool) :
    Expresses (positional n ++ if keepsPoint && decide (0 ≤ n.exponent) then ".0" else "").toList
      n.value := by
  have hdigits := isDigit_toDigits n.digits
  have hread := @Nat.ofDigitChars_ten_toDigits n.digits
  have hsome : Nat.toDigits 10 n.digits ≠ [] := Nat.toDigits_ne_nil
  have hzeros : ∀ k, ∀ c ∈ List.replicate k '0', c.isDigit = true := by
    intro k c hc
    rw [(List.mem_replicate.mp hc).2]
    decide
  unfold positional
  extract_lets ds
  by_cases hwhole : 0 ≤ n.exponent
  · obtain ⟨k, hk⟩ := Int.eq_ofNat_of_zero_le hwhole
    have hvalue : n.value = Nat.ofDigitChars 10 (ds ++ List.replicate k '0') 0 := by
      rw [Nat.ofDigitChars_append, hread, Nat.ofDigitChars_replicate_zero, Numeral.value, hk,
        zpow_natCast]
      push_cast
      ring
    have hall : ∀ c ∈ ds ++ List.replicate k '0', c.isDigit = true :=
      List.forall_mem_append.mpr ⟨hdigits, hzeros k⟩
    rw [if_pos hwhole, hk, Int.toNat_natCast]
    cases keepsPoint with
    | false =>
        refine ⟨ds ++ List.replicate k '0', [], by simp [ds], by simpa using hall, .inl ?_,
          by simpa using hvalue⟩
        simp [toList_zeros]
    | true =>
        refine ⟨ds ++ List.replicate k '0', ['0'], by simp [ds], ?_, .inr ⟨List.cons_ne_nil _ _, ?_⟩, ?_⟩
        · exact List.forall_mem_append.mpr ⟨hall, hzeros 1⟩
        · simp [toList_zeros]
        · rw [Nat.ofDigitChars_append, Nat.ofDigitChars_cons, Nat.ofDigitChars_nil, hvalue]
          push_cast
          simp
  · have hnone : (if keepsPoint && decide (0 ≤ n.exponent) then ".0" else "") = "" := by
      simp [hwhole]
    obtain ⟨k, hk⟩ : ∃ k : ℕ, n.exponent = -(k : ℤ) := ⟨(-n.exponent).toNat, by omega⟩
    have hpoint : n.point = ds.length + n.exponent := rfl
    rw [if_neg hwhole, hnone, String.append_empty]
    split
    case isTrue hinside =>
      refine ⟨ds.take n.point.toNat, ds.drop n.point.toNat, ?_, ?_, .inr ⟨?_, ?_⟩, ?_⟩
      · simp only [ne_eq, List.take_eq_nil_iff, not_or]
        exact ⟨by omega, hsome⟩
      · rwa [List.take_append_drop]
      · simp only [ne_eq, List.drop_eq_nil_iff]
        omega
      · simp
      · have hlength : (ds.drop n.point.toNat).length = k := by
          rw [List.length_drop]
          omega
        rw [List.take_append_drop, hread, hlength, Numeral.value_of_neg hk]
    case isFalse houtside =>
      refine ⟨['0'], List.replicate (-n.point).toNat '0' ++ ds, by simp, ?_, .inr ⟨?_, ?_⟩, ?_⟩
      · simp only [List.forall_mem_append]
        exact ⟨hzeros 1, hzeros _, hdigits⟩
      · exact List.append_ne_nil_of_right_ne_nil _ hsome
      · simp [toList_zeros]
      · have hlength : (List.replicate (-n.point).toNat '0' ++ ds).length = k := by
          rw [List.length_append, List.length_replicate]
          omega
        rw [hlength, Numeral.value_of_neg hk, List.singleton_append, Nat.ofDigitChars_cons,
          Nat.ofDigitChars_append, Nat.ofDigitChars_replicate_zero]
        simp [ds, hread]

/-- An integer is expressed by its digits, with a further zero behind a point or without. -/
theorem expresses_digitsOf (n : Nat) (keepsPoint : Bool) :
    Expresses (digitsOf n ++ if keepsPoint then ".0" else "").toList n := by
  have hexpresses := expresses_positional ⟨n, 0⟩ keepsPoint
  simpa [positional, zeros, Numeral.value, digitsOf] using hexpresses

/-- Scientific notation gives the digits with a point behind the first, and then the exponent. -/
theorem writes_scientific (plus : Bool) (n : Numeral) :
    Writes (scientific plus n).toList n.value := by
  suffices h : ∃ cs q, Expresses cs q ∧ n.value = q * 10 ^ (n.point - 1) ∧
      (scientific plus n).toList = cs ++ 'e' :: (exponentText plus (n.point - 1)).toList by
    obtain ⟨cs, q, hexpresses, hvalue, htext⟩ := h
    have hwrites := Writes.scientific hexpresses (List.mem_cons_self : 'e' ∈ ['e', 'E'])
      (isExponent_exponentText plus (n.point - 1))
    rwa [integerOf_exponentText, ← hvalue, ← htext] at hwrites
  have hdigits := isDigit_toDigits n.digits
  have hread := @Nat.ofDigitChars_ten_toDigits n.digits
  have hpoint : n.point = (Nat.toDigits 10 n.digits).length + n.exponent := rfl
  have hsome : Nat.toDigits 10 n.digits ≠ [] := Nat.toDigits_ne_nil
  unfold scientific
  generalize Nat.toDigits 10 n.digits = ds at hdigits hread hpoint hsome
  have hten : (10 : ℚ) ≠ 0 := by decide
  match ds, hsome with
  | [d], _ =>
      refine ⟨[d], n.digits, ⟨[d], [], by simp, by simpa using hdigits, .inl ⟨rfl, rfl⟩, ?_⟩, ?_, ?_⟩
      · simp [hread]
      · rw [Numeral.value, hpoint]
        congr
        simp
      · simp
  | d :: d' :: rest, _ =>
      refine ⟨d :: '.' :: d' :: rest, n.digits / 10 ^ (rest.length + 1),
        ⟨[d], d' :: rest, by simp, by simpa using hdigits, .inr ⟨List.cons_ne_nil _ _, rfl⟩, ?_⟩, ?_, ?_⟩
      · simp only [List.singleton_append, hread, List.length_cons]
      · have hexponent : n.point - 1 = ((rest.length + 1 : Nat) : ℤ) + n.exponent := by
          rw [hpoint]
          simp only [List.length_cons]
          omega
        rw [Numeral.value, hexponent, zpow_add₀ hten, zpow_natCast]
        field_simp
      · simp

/-! ### Layouts -/

namespace Layout

variable {mag : Nat}

/-- The text of a finite magnitude writes a numeral that reads back, in one of the two notations. -/
theorem finiteText_expresses (l : Layout) (h : mag ≤ infinity) :
    ∃ n : Numeral, Nearest n.value mag ∧
      (Expresses (l.finiteText mag).toList n.value ∨
        l.isPositional (n.point - 1) = false ∧ l.finiteText mag = scientific l.plus n) := by
  unfold finiteText
  split
  case isTrue hzero =>
    have hvalue : (⟨0, 0⟩ : Numeral).value = value mag := by
      rw [hzero, value_zero, Numeral.value, Nat.cast_zero, zero_mul]
    refine ⟨⟨0, 0⟩, ?_, .inl ?_⟩
    · rw [hvalue]
      exact .self h
    · have hzero (k : Nat) : (⟨0, 0⟩ : Numeral).value =
          Nat.ofDigitChars 10 (List.replicate (k + 1) '0') 0 / 10 ^ k := by
        simp [Numeral.value, Nat.ofDigitChars_replicate_zero]
      cases l.keepsPoint with
      | true => exact ⟨['0'], ['0'], by simp, by simp, .inr ⟨List.cons_ne_nil _ _, rfl⟩, hzero 1⟩
      | false => exact ⟨['0'], [], by simp, by simp, .inl ⟨rfl, rfl⟩, hzero 0⟩
  case isFalse hpos =>
    refine ⟨shortest l.tie mag, nearest_shortest l.tie h, ?_⟩
    dsimp only
    split
    case isTrue => exact .inl (expresses_positional _ l.keepsPoint)
    case isFalse hscientific => exact .inr ⟨by simpa using hscientific, rfl⟩

/-- The text of a finite magnitude writes a decimal number to which the magnitude is the nearest. -/
theorem writes_finiteText (l : Layout) (h : mag ≤ infinity) :
    ∃ q, Writes (l.finiteText mag).toList q ∧ Nearest q mag := by
  obtain ⟨n, hnearest, hexpresses | ⟨-, hscientific⟩⟩ := l.finiteText_expresses h
  · exact ⟨n.value, .plain hexpresses, hnearest⟩
  · exact ⟨n.value, hscientific ▸ writes_scientific l.plus n, hnearest⟩

/-- The plain layout writes digits alone. -/
theorem expresses_plain (h : mag ≤ infinity) :
    ∃ q, Nearest q mag ∧ Expresses (plain.finiteText mag).toList q := by
  obtain ⟨n, hnearest, hexpresses | ⟨hscientific, -⟩⟩ := plain.finiteText_expresses h
  · exact ⟨n.value, hnearest, hexpresses⟩
  · cases hscientific

end Layout

end

/-! ### Formats -/

/-- A way to write finite numbers from which they can be read back: behind the sign there is a decimal
number to which the magnitude is the nearest. -/
structure Format where
  text : Float → String
  roundTrips : ∀ x, magnitude x < infinity → ∃ cs q, Writes cs q ∧ Nearest q (magnitude x) ∧
    (text x).toList = (if isNegative x then ['-'] else []) ++ cs

/-- Every layout is such a way. -/
def Layout.format (l : Layout) : Format where
  text := l.text
  roundTrips x hfinite := by
    obtain ⟨q, hwrites, hnearest⟩ := l.writes_finiteText hfinite.le
    refine ⟨_, q, hwrites, hnearest, ?_⟩
    have hnumber : ¬infinity < magnitude x := by omega
    simp only [text, signed, hnumber, hfinite.ne, if_false, String.toList_append]
    cases isNegative x <;> rfl

namespace Format

variable {f : Format} {x : Float} {mag mag' : Nat}

theorem text_ne_nil (f : Format) (h : magnitude x < infinity) : (f.text x).toList ≠ [] := by
  obtain ⟨cs, q, hwrites, -, htext⟩ := f.roundTrips x h
  rw [htext]
  exact List.append_ne_nil_of_right_ne_nil _ hwrites.ne_nil

/-- The characters that texts of finite numbers are made of. -/
theorem mem_text (h : magnitude x < infinity) {c : Char} (hc : c ∈ (f.text x).toList) :
    c.isDigit ∨ c ∈ ['.', 'e', 'E', '+', '-'] := by
  obtain ⟨cs, q, hwrites, -, htext⟩ := f.roundTrips x h
  rw [htext] at hc
  rcases List.mem_append.mp hc with hc | hc
  · revert hc
    cases isNegative x <;> simp +contextual
  · exact hwrites.mem hc

theorem writes_text_ofMagnitude (f : Format) (h : mag < infinity) :
    ∃ q, Writes (f.text (ofMagnitude mag)).toList q ∧ Nearest q mag := by
  have hmagnitude := magnitude_ofMagnitude h.le
  obtain ⟨cs, q, hwrites, hnearest, htext⟩ := f.roundTrips (ofMagnitude mag) (by rwa [hmagnitude])
  rw [isNegative_ofMagnitude h.le] at htext
  rw [hmagnitude] at hnearest
  exact ⟨q, by rwa [htext], hnearest⟩

/-- No two magnitudes share a text. -/
theorem text_inj (h : mag < infinity) (h' : mag' < infinity)
    (heq : f.text (ofMagnitude mag) = f.text (ofMagnitude mag')) : mag = mag' := by
  obtain ⟨q, hwrites, hnearest⟩ := f.writes_text_ofMagnitude h
  obtain ⟨q', hwrites', hnearest'⟩ := f.writes_text_ofMagnitude h'
  rw [heq] at hwrites
  rw [← hwrites.denoted, hwrites'.denoted] at hnearest
  exact hnearest.unique hnearest'

end Format

end LoxLang.Decimal
