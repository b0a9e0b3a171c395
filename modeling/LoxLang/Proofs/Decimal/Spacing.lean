import LoxLang.Proofs.Decimal.Texts

/-!
Seventeen digits. On the grid of the multiples of a power of ten that is seventeen digits fine, the
points are closer together than neighbouring magnitudes are, so that one of the two points around a
number reads back: the search for the shortest digits always ends there or before. An integer stands on
the grid of the integers itself, so that its shortest digits have no fraction.
-/

namespace LoxLang.Decimal

/-! ### Gaps -/

/-- The gap below a number is not smaller than the number by more than 53 binary digits. -/
theorem units_le_gap (mag : Nat) :
    units (mag + 1) ≤ 2 ^ 53 * (units (mag + 1) - units mag) := by
  obtain ⟨k, v, hmag, hv, hk⟩ := exists_grid mag
  obtain ⟨hfirst, hnext⟩ := units_grid hv hk
  have hone : 2 * binade = 2 ^ 53 := rfl
  rw [hmag, hnext, hfirst, ← Nat.sub_mul, Nat.add_sub_cancel_left, Nat.one_mul]
  exact Nat.mul_le_mul_right _ (by omega)

theorem value_le_gap (mag : Nat) :
    value (mag + 1) ≤ 2 ^ 53 * (value (mag + 1) - value mag) := by
  have hgap := units_le_gap mag
  have hle : units mag ≤ units (mag + 1) := units_strictMono.monotone (Nat.le_succ mag)
  have hcast : (units (mag + 1) : ℚ) ≤ 2 ^ 53 * (units (mag + 1) - units mag) := by
    rw [← Nat.cast_sub hle]
    exact_mod_cast hgap
  rw [value, value, ← sub_div, ← mul_div_assoc]
  exact div_le_div_of_nonneg_right hcast one_pos.le

/-- A number is the nearest to what is in the inner halves of the gaps around it. -/
theorem Nearest.between {q : ℚ} {mag : Nat} (hlt : mag + 1 < infinity)
    (hlow : value mag + value (mag + 1) < 2 * q)
    (hhigh : 2 * q < value (mag + 1) + value (mag + 1 + 1)) : Nearest q (mag + 1) := by
  rcases le_total q (value (mag + 1)) with hle | hle
  · exact .above hlt.le hle hlow.le fun heq => absurd heq hlow.ne'
  · exact .below hlt hle hhigh.le fun heq => absurd heq hhigh.ne

/-! ### Decimal orders -/

section

variable {mag : Nat}

/-- An integer and the number of its digits. -/
theorem pow_le_of_length {n l : Nat} (hn : 0 < n) (hl : (Nat.toDigits 10 n).length = l + 1) :
    10 ^ l ≤ n ∧ n < 10 ^ (l + 1) := by
  constructor
  · by_contra hlt
    rw [Nat.not_le] at hlt
    rcases Nat.eq_zero_or_pos l with rfl | hpos
    · omega
    · have hshort := (Nat.length_toDigits_le_iff (by decide) hpos).mpr hlt
      omega
  · exact (Nat.length_toDigits_le_iff (by decide) (Nat.succ_pos l)).mp hl.le

/-- The order of a number is that of its leading digit. -/
theorem value_order (h : 0 < mag) :
    (10 : ℚ) ^ order mag ≤ value mag ∧ value mag < 10 ^ (order mag + 1) := by
  -- The power of ten that makes every number greater than one stays a variable: it is not computed.
  obtain ⟨k, hone, horder⟩ : ∃ k, one ≤ Nat.pow 10 k ∧ order mag + 1 + k =
      (Nat.toDigits 10 (units mag * Nat.pow 10 k / one)).length :=
    ⟨340, by decide +kernel, by unfold order; omega⟩
  have hpos : 0 < one := Nat.cast_pos.mp one_pos
  have hten : (10 : ℚ) ≠ 0 := by decide
  have hunits : 0 < units mag := (Nat.zero_le _).trans_lt (units_strictMono h)
  have hn : 0 < units mag * Nat.pow 10 k / one :=
    Nat.div_pos (hone.trans (Nat.le_mul_of_pos_left _ hunits)) hpos
  obtain ⟨l, hl⟩ := Nat.exists_eq_add_one.mpr (Nat.length_toDigits_pos (b := 10)
    (n := units mag * Nat.pow 10 k / one))
  obtain ⟨hlow, hhigh⟩ := pow_le_of_length hn hl
  have hscaled : value mag * 10 ^ k = ((units mag * Nat.pow 10 k : Nat) : ℚ) / one := by
    rw [value, div_mul_eq_mul_div, Nat.cast_mul, Nat.pow_eq, Nat.cast_pow, Nat.cast_ofNat]
  have hexponent : order mag = (l : ℤ) - k := by omega
  constructor
  · have hle : (10 : ℚ) ^ l ≤ value mag * 10 ^ k := by
      rw [hscaled, le_div_iff₀ one_pos]
      exact_mod_cast (Nat.le_div_iff_mul_le hpos).mp hlow
    rwa [hexponent, zpow_sub₀ hten, zpow_natCast, zpow_natCast, div_le_iff₀ (by positivity)]
  · have hlt : value mag * 10 ^ k < (10 : ℚ) ^ (l + 1) := by
      rw [hscaled, div_lt_iff₀ one_pos]
      exact_mod_cast (Nat.div_lt_iff_lt_mul hpos).mp hhigh
    have hnext : order mag + 1 = ((l + 1 : Nat) : ℤ) - k := by omega
    rwa [hnext, zpow_sub₀ hten, zpow_natCast, zpow_natCast, lt_div_iff₀ (by positivity)]

/-! ### Grids -/

/-- A number is between the two points of a grid that stand around it. -/
theorem value_floorOn (mag : Nat) (e : Int) :
    (⟨floorOn mag e, e⟩ : Numeral).value ≤ value mag ∧
      value mag < (⟨floorOn mag e + 1, e⟩ : Numeral).value := by
  have hpos : 0 < one * 10 ^ e.toNat := Nat.mul_pos (by decide +kernel) (Nat.pow_pos (by decide))
  have hden : (0 : ℚ) < (10 ^ (-e).toNat : Nat) := by
    exact_mod_cast Nat.pow_pos (by decide)
  have hcross : ∀ d : Nat, (⟨d, e⟩ : Numeral).value ≤ value mag ↔
      d * (one * 10 ^ e.toNat) ≤ units mag * 10 ^ (-e).toNat := by
    intro d
    rw [Numeral.value_eq_div, value]
    simp only [Numeral.numerator, Numeral.denominator, Nat.pow_eq]
    rw [div_le_div_iff₀ hden one_pos, Nat.mul_left_comm d, Nat.mul_comm one]
    exact_mod_cast Iff.rfl
  constructor
  · rw [hcross]
    exact Nat.div_mul_le_self _ _
  · rw [← not_le, hcross, not_le]
    exact (Nat.div_lt_iff_lt_mul hpos).mp (Nat.lt_succ_self _)

/-- What is on a grid is found there if one of the points around the number reads back. -/
theorem isSome_onGrid (tie : Tie) {e : Int} (h : (⟨floorOn mag e, e⟩ : Numeral).reading = mag ∨
    (⟨floorOn mag e + 1, e⟩ : Numeral).reading = mag) : (onGrid tie mag e).isSome := by
  unfold onGrid
  extract_lets low high
  split
  case h_1 first second hpair =>
    have hreads : first.reading = mag ∨ second.reading = mag := by
      split at hpair
      · cases hpair
        exact h.symm
      · cases hpair
        exact h
    rcases hreads with hfirst | hsecond
    · rw [if_pos hfirst]
      rfl
    · rw [if_pos hsecond]
      split <;> rfl

theorem reading_eq {n : Numeral} (h : Nearest n.value mag) : n.reading = mag :=
  n.nearest_reading.unique h

/-- Seventeen digits tell a number from all others. -/
theorem isSome_onGrid_seventeen (tie : Tie) (hpos : 0 < mag) (hlt : mag < infinity) :
    (onGrid tie mag (order mag - 16)).isSome := by
  obtain ⟨m, rfl⟩ := Nat.exists_eq_add_one.mpr hpos
  let e := order (m + 1) - 16
  obtain ⟨horder, -⟩ := value_order hpos
  have hstep : (10 : ℚ) ^ e * 10 ^ 16 ≤ value (m + 1) := by
    rw [← zpow_natCast, ← zpow_add₀ (by decide)]
    simpa [e] using horder
  have hbelow := value_le_gap m
  have habove := value_le_gap (m + 1)
  have hnext := value_strictMono (Nat.lt_succ_self (m + 1))
  obtain ⟨hfloor, hceil⟩ := value_floorOn (m + 1) e
  have hsucc : (⟨floorOn (m + 1) e + 1, e⟩ : Numeral).value =
      (⟨floorOn (m + 1) e, e⟩ : Numeral).value + 10 ^ e := by
    simp only [Numeral.value]
    push_cast
    ring
  have hgrid : (0 : ℚ) < 10 ^ e := by positivity
  apply isSome_onGrid
  -- The nearer of the two points is at most half a step away, and a step is less than either gap.
  rcases le_or_gt (2 * value (m + 1)) (2 * (⟨floorOn (m + 1) e, e⟩ : Numeral).value + 10 ^ e) with
    hnear | hnear
  · exact .inl (reading_eq (.between hlt (by linarith) (by linarith)))
  · exact .inr (reading_eq (.between hlt (by linarith) (by linarith)))

/-- An integer is a point of the grid of integers. -/
theorem isSome_onGrid_whole (tie : Tie) (hle : mag ≤ infinity) (hwhole : isWhole mag = true) :
    (onGrid tie mag 0).isSome := by
  apply isSome_onGrid
  left
  apply reading_eq
  have hvalue : (⟨floorOn mag 0, 0⟩ : Numeral).value = value mag := by
    rw [value_of_whole hwhole]
    simp [Numeral.value, floorOn, wholePart]
  rw [hvalue]
  exact .self hle

/-! ### The search -/

theorem exponent_onGrid {tie : Tie} {e : Int} {n : Numeral} (h : onGrid tie mag e = some n) :
    n.exponent = e := by
  rcases (onGrid_eq_some h).2 with rfl | rfl
  · rfl
  · rfl

theorem Numeral.exponent_le_trimmed (n : Numeral) : n.exponent ≤ n.trimmed.exponent := by
  unfold trimmed
  split
  · exact Int.le_add_of_nonneg_right (by decide)
  · exact le_rfl

/-- The search ends on the first grid that has the number, so that no finer one gives its digits. -/
theorem le_exponent_shortest {tie : Tie} {j : Nat} (hj : j < 17)
    (hfound : (onGrid tie mag (order mag - j)).isSome) :
    order mag - j ≤ (shortest tie mag).exponent := by
  rcases shortest_cases tie mag with ⟨i, n, -, hgrid, hcoarser, hn⟩ | ⟨hnone, -⟩
  · have hle : i ≤ j := by
      by_contra hlt
      rw [hcoarser j (Nat.lt_of_not_le hlt)] at hfound
      cases hfound
    calc order mag - j ≤ order mag - i := by omega
      _ = n.exponent := (exponent_onGrid hgrid).symm
      _ ≤ n.trimmed.exponent := n.exponent_le_trimmed
      _ = (shortest tie mag).exponent := by rw [hn]
  · rw [hnone j hj] at hfound
    cases hfound

/-- The digits of an integer do not reach behind its last place. -/
theorem exponent_shortest_whole (tie : Tie) (hpos : 0 < mag) (hlt : mag < infinity)
    (hwhole : isWhole mag = true) : 0 ≤ (shortest tie mag).exponent := by
  have horder : 0 ≤ order mag := by
    obtain ⟨-, hhigh⟩ := value_order hpos
    have hone : (1 : ℚ) ≤ value mag := by
      have hpart := value_pos hpos
      rw [value_of_whole hwhole] at hpart ⊢
      exact_mod_cast Nat.cast_pos.mp hpart
    by_contra hneg
    have hle : (10 : ℚ) ^ (order mag + 1) ≤ 10 ^ (0 : ℤ) :=
      zpow_le_zpow_right₀ (by decide) (by omega)
    rw [zpow_zero] at hle
    linarith
  by_cases hshort : order mag < 17
  · have hzero : order mag - (order mag).toNat = 0 := by omega
    have hfound := isSome_onGrid_whole tie hlt.le hwhole
    rw [← hzero] at hfound
    have hle := le_exponent_shortest (by omega) hfound
    omega
  · have hfound := isSome_onGrid_seventeen tie hpos hlt
    have hle := le_exponent_shortest (j := 16) (by decide) hfound
    omega

/-- A numeral that is a multiple of one is written with digits alone. -/
theorem isDigit_positional {n : Numeral} (h : 0 ≤ n.exponent) :
    ∀ c ∈ (positional n).toList, c.isDigit := by
  have htext : positional n = String.ofList (Nat.toDigits 10 n.digits) ++ zeros n.exponent.toNat :=
    if_pos h
  rw [htext, String.toList_append, String.toList_ofList, toList_zeros, List.forall_mem_append]
  refine ⟨isDigit_toDigits _, fun c hc => ?_⟩
  rw [(List.mem_replicate.mp hc).2]
  decide

/-- The plain layout writes no point in an integer. -/
theorem isDigit_plain (hlt : mag < infinity) (hwhole : isWhole mag = true) :
    ∀ c ∈ (plain.finiteText mag).toList, c.isDigit := by
  by_cases hzero : mag = 0
  · have htext : plain.finiteText mag = "0" := if_pos hzero
    simp [htext]
  · have htext : plain.finiteText mag = positional (shortest .up mag) ++ "" := if_neg hzero
    rw [htext, String.append_empty]
    exact isDigit_positional (exponent_shortest_whole .up (Nat.pos_of_ne_zero hzero) hlt hwhole)

end

end LoxLang.Decimal
