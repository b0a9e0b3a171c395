import Mathlib
import LoxLang.Decimal.Reading

/-!
Rounding. Magnitudes name greater and greater numbers, and between two neighbours the search for the
nearest goes right: `nearest` gives the magnitude whose number is nearest to a quotient, the even one of
two that are equally near. This says which magnitude it is, so that a number may be recognized by any
quotient that is nearer to it than to all others.
-/

namespace LoxLang.Decimal

/-! ### The numbers of magnitudes -/

theorem units_of_lt {v : Nat} (h : v < binade) : units v = v := by
  have hzero : v / binade = 0 := Nat.div_eq_of_lt h
  have hmod : v % binade = v := Nat.mod_eq_of_lt h
  simp [units, hzero, hmod]

theorem units_normal {r : Nat} (k : Nat) (h : r < binade) :
    units ((k + 1) * binade + r) = (r + binade) * 2 ^ k := by
  have hpos : 0 < binade := by decide
  have hdiv : ((k + 1) * binade + r) / binade = k + 1 := by
    rw [Nat.add_comm, Nat.add_mul_div_right _ _ hpos, Nat.div_eq_of_lt h, Nat.zero_add]
  have hmod : ((k + 1) * binade + r) % binade = r := by
    rw [Nat.add_comm, Nat.add_mul_mod_self_right, Nat.mod_eq_of_lt h]
  simp [units, hdiv, hmod]

/-- A magnitude and the next one stand on one grid. -/
theorem units_grid {k v : Nat} (hv : v < 2 * binade) (hk : binade ≤ v ∨ k = 0) :
    units (k * binade + v) = v * 2 ^ k ∧ units (k * binade + v + 1) = (v + 1) * 2 ^ k := by
  have hone : binade = 4503599627370496 := rfl
  by_cases hnormal : binade ≤ v
  · obtain ⟨r, rfl⟩ := Nat.exists_eq_add_of_le hnormal
    have hfirst : k * binade + (binade + r) = (k + 1) * binade + r := by ring
    constructor
    · rw [hfirst, units_normal k (by omega), Nat.add_comm r]
    · by_cases hlast : r + 1 < binade
      · rw [hfirst, Nat.add_assoc, units_normal k hlast]
        ring
      · have hnext : (k + 1) * binade + r + 1 = (k + 1 + 1) * binade + 0 := by
          rw [Nat.succ_mul (k + 1)]
          omega
        have hr : binade + r + 1 = 2 * binade := by omega
        rw [hfirst, hnext, units_normal (k + 1) (by omega), hr]
        ring
  · obtain rfl : k = 0 := hk.resolve_left hnormal
    rw [Nat.not_le] at hnormal
    rw [Nat.zero_mul, Nat.zero_add, Nat.pow_zero, Nat.mul_one, Nat.mul_one]
    refine ⟨units_of_lt hnormal, ?_⟩
    by_cases hlast : v + 1 < binade
    · exact units_of_lt hlast
    · have hnext : v + 1 = (0 + 1) * binade + 0 := by omega
      rw [hnext, units_normal 0 (by omega)]
      omega

theorem exists_grid (mag : Nat) :
    ∃ k v, mag = k * binade + v ∧ v < 2 * binade ∧ (binade ≤ v ∨ k = 0) := by
  have hone : binade = 4503599627370496 := rfl
  by_cases hsmall : mag < binade
  · exact ⟨0, mag, by omega, by omega, .inr rfl⟩
  · rw [hone] at hsmall ⊢
    exact ⟨mag / 4503599627370496 - 1, mag % 4503599627370496 + 4503599627370496, by omega, by omega,
      .inl (by omega)⟩

theorem units_strictMono : StrictMono units := by
  apply strictMono_nat_of_lt_succ
  intro mag
  obtain ⟨k, v, hmag, hv, hk⟩ := exists_grid mag
  obtain ⟨hfirst, hnext⟩ := units_grid hv hk
  rw [hmag, hfirst, hnext]
  exact Nat.mul_lt_mul_of_pos_right (Nat.lt_succ_self v) (Nat.two_pow_pos k)

/-- What a magnitude is found below is less than the number of the next one. -/
theorem units_magnitudeBelow (u : Nat) :
    units (magnitudeBelow u) ≤ u ∧ u < units (magnitudeBelow u + 1) := by
  have hone : binade = 2 ^ 52 := rfl
  let k := u.log2 - 52
  have hbelow : magnitudeBelow u = k * binade + u / 2 ^ k := rfl
  have hlt : u < 2 ^ (53 + k) := by
    have hself : u < 2 ^ (u.log2 + 1) := Nat.lt_log2_self
    have hle : 2 ^ (u.log2 + 1) ≤ 2 ^ (53 + k) := Nat.pow_le_pow_right (by decide) (by omega)
    omega
  have hv : u / 2 ^ k < 2 * binade := by
    apply Nat.div_lt_of_lt_mul
    rwa [hone, ← Nat.pow_succ', ← Nat.pow_add, Nat.add_comm k]
  have hk : binade ≤ u / 2 ^ k ∨ k = 0 := by
    by_cases hzero : k = 0
    · exact .inr hzero
    · left
      have hpos : u ≠ 0 := by
        rintro rfl
        exact hzero rfl
      have hself : 2 ^ u.log2 ≤ u := Nat.log2_self_le hpos
      have hlog : u.log2 = 52 + k := by omega
      rwa [Nat.le_div_iff_mul_le (Nat.two_pow_pos k), hone, ← Nat.pow_add, ← hlog]
  obtain ⟨hfirst, hnext⟩ := units_grid hv hk
  rw [hbelow, hfirst, hnext]
  have hpow : 0 < 2 ^ k := Nat.two_pow_pos k
  exact ⟨Nat.div_mul_le_self _ _, (Nat.div_lt_iff_lt_mul hpow).mp (Nat.lt_succ_self _)⟩

/-- The number that a magnitude names. -/
def value (mag : Nat) : ℚ :=
  units mag / one

theorem one_pos : (0 : ℚ) < one := by
  have hpos : 0 < one := by decide +kernel
  exact_mod_cast hpos

theorem value_strictMono : StrictMono value := by
  intro m n h
  apply div_lt_div_of_pos_right _ one_pos
  exact_mod_cast units_strictMono h

theorem value_zero : value 0 = 0 := by
  rw [value, units_of_lt (by decide), Nat.cast_zero, zero_div]

theorem value_pos {mag : Nat} (h : 0 < mag) : 0 < value mag :=
  value_zero ▸ value_strictMono h

/-- A magnitude that names an integer names its integer part. -/
theorem value_of_whole {mag : Nat} (h : isWhole mag = true) : value mag = wholePart mag :=
  (Nat.cast_div (Nat.dvd_of_mod_eq_zero (beq_iff_eq.mp h)) one_pos.ne').symm

theorem isWhole_iff {mag : Nat} : isWhole mag = true ↔ ∃ n : ℕ, value mag = n := by
  refine ⟨fun h => ⟨_, value_of_whole h⟩, ?_⟩
  rintro ⟨n, hn⟩
  rw [value, div_eq_iff one_pos.ne'] at hn
  have hunits : units mag = n * one := by exact_mod_cast hn
  rw [isWhole, hunits, Nat.mul_mod_left]
  rfl

/-! ### The nearest -/

/-- A magnitude names the number that is nearest to `q`, and of two that are equally near it is the even
one. The magnitude of infinity counts as the number that would be next. -/
structure Nearest (q : ℚ) (mag : Nat) : Prop where
  le : mag ≤ infinity
  nearest : ∀ m ≤ infinity, |value mag - q| ≤ |value m - q|
  even : ∀ m ≤ infinity, m ≠ mag → |value m - q| = |value mag - q| → mag % 2 = 0

namespace Nearest

variable {q : ℚ} {mag mag' : Nat}

/-- A magnitude below `q` is the nearest if `q` is in the lower half of the gap above it. -/
theorem below (hlt : mag < infinity) (hle : value mag ≤ q)
    (hhalf : 2 * q ≤ value mag + value (mag + 1))
    (htie : 2 * q = value mag + value (mag + 1) → mag % 2 = 0) : Nearest q mag := by
  have hdistance : |value mag - q| = q - value mag := by
    rw [abs_sub_comm, abs_of_nonneg (sub_nonneg.mpr hle)]
  have habove : ∀ m, mag < m → value (mag + 1) - q ≤ |value m - q| := by
    intro m hm
    have hvalue := value_strictMono.monotone (Nat.succ_le_of_lt hm)
    exact (sub_le_sub_right hvalue q).trans (le_abs_self _)
  have hbelow : ∀ m, q - value m ≤ |value m - q| := by
    intro m
    rw [abs_sub_comm]
    exact le_abs_self _
  refine ⟨hlt.le, fun m _ => ?_, fun m _ hne heq => ?_⟩
  · rw [hdistance]
    rcases Nat.lt_or_ge mag m with hm | hm
    · have hgap := habove m hm
      linarith
    · have hvalue := value_strictMono.monotone hm
      have hgap := hbelow m
      linarith
  · rw [hdistance] at heq
    rcases Nat.lt_or_gt_of_ne hne with hm | hm
    · have hvalue := value_strictMono hm
      have hgap := hbelow m
      linarith
    · have hgap := habove m hm
      exact htie (by linarith)

/-- A magnitude above `q` is the nearest if `q` is in the upper half of the gap below it. -/
theorem above (hlt : mag + 1 ≤ infinity) (hle : q ≤ value (mag + 1))
    (hhalf : value mag + value (mag + 1) ≤ 2 * q)
    (htie : 2 * q = value mag + value (mag + 1) → (mag + 1) % 2 = 0) : Nearest q (mag + 1) := by
  have hdistance : |value (mag + 1) - q| = value (mag + 1) - q := abs_of_nonneg (sub_nonneg.mpr hle)
  have hbelow : ∀ m, m ≤ mag → q - value mag ≤ |value m - q| := by
    intro m hm
    have hvalue := value_strictMono.monotone hm
    rw [abs_sub_comm]
    exact (sub_le_sub_left hvalue q).trans (le_abs_self _)
  have habove : ∀ m, value m - q ≤ |value m - q| := fun m => le_abs_self _
  refine ⟨hlt, fun m _ => ?_, fun m _ hne heq => ?_⟩
  · rw [hdistance]
    rcases Nat.lt_or_ge mag m with hm | hm
    · have hvalue := value_strictMono.monotone (Nat.succ_le_of_lt hm)
      have hgap := habove m
      linarith
    · have hgap := hbelow m hm
      linarith
  · rw [hdistance] at heq
    rcases Nat.lt_or_gt_of_ne hne with hm | hm
    · have hgap := hbelow m (Nat.le_of_lt_succ hm)
      exact htie (by linarith)
    · have hvalue := value_strictMono hm
      have hgap := habove m
      linarith

/-- What is as great as infinity is nearest to it. -/
theorem overflow (h : value infinity ≤ q) : Nearest q infinity := by
  have hdistance : ∀ m ≤ infinity, |value m - q| = q - value m := by
    intro m hm
    have hvalue := value_strictMono.monotone hm
    rw [abs_sub_comm, abs_of_nonneg (by linarith)]
  refine ⟨le_refl _, fun m hm => ?_, fun _ _ _ _ => rfl⟩
  have hvalue := value_strictMono.monotone hm
  rw [hdistance m hm, hdistance infinity (le_refl _)]
  linarith

/-- A number is the nearest to itself. -/
theorem self (h : mag ≤ infinity) : Nearest (value mag) mag := by
  refine ⟨h, fun m _ => ?_, fun m _ hne heq => ?_⟩
  · rw [sub_self, abs_zero]
    exact abs_nonneg _
  · rw [sub_self, abs_zero, abs_eq_zero, sub_eq_zero] at heq
    exact absurd (value_strictMono.injective heq) hne

/-- Only one magnitude is the nearest. -/
theorem unique (h : Nearest q mag) (h' : Nearest q mag') : mag = mag' := by
  -- Two that are equally near are on either side of `q`, and a third one between them would be nearer.
  have key : ∀ {m n : Nat}, Nearest q m → Nearest q n → ¬m < n := by
    intro m n hm hn hlt
    have hequal : |value m - q| = |value n - q| :=
      le_antisymm (hm.nearest n hn.le) (hn.nearest m hm.le)
    have hvalue := value_strictMono hlt
    have hmiddle : q - value m = value n - q := by
      rcases abs_eq_abs.mp hequal with heq | heq <;> linarith
    have hadjacent : n = m + 1 := by
      by_contra hne
      have hbetween : m + 1 < n := by omega
      have hlow := value_strictMono (Nat.lt_succ_self m)
      have hhigh := value_strictMono hbetween
      have hnearer : |value (m + 1) - q| < |value m - q| := by
        have hdistance : |value m - q| = q - value m := by
          rw [abs_sub_comm, abs_of_nonneg (by linarith)]
        rw [hdistance, abs_lt]
        constructor <;> linarith
      have hle : m + 1 ≤ infinity := (Nat.le_of_lt hbetween).trans hn.le
      exact absurd (hm.nearest (m + 1) hle) (not_le_of_gt hnearer)
    have heven := hm.even n hn.le (by omega) hequal.symm
    have heven' := hn.even m hm.le (by omega) hequal
    omega
  rcases Nat.lt_trichotomy mag mag' with hlt | heq | hlt
  · exact absurd hlt (key h h')
  · exact heq
  · exact absurd hlt (key h' h)

end Nearest

/-! ### Rounding a quotient -/

section

variable {num den : Nat}

theorem value_le_div (hden : 0 < den) (mag : Nat) :
    value mag ≤ num / den ↔ units mag * den ≤ num * one := by
  have hden' : (0 : ℚ) < den := by exact_mod_cast hden
  rw [value, div_le_div_iff₀ one_pos hden']
  exact_mod_cast Iff.rfl

theorem div_lt_value (hden : 0 < den) (mag : Nat) :
    (num / den : ℚ) < value mag ↔ num * one < units mag * den := by
  rw [← not_le, value_le_div hden, Nat.not_le]

theorem twice_lt_middle (hden : 0 < den) (m n : Nat) :
    2 * (num / den : ℚ) < value m + value n ↔
      2 * (num * one) < (units m + units n) * den := by
  have hden' : (0 : ℚ) < den := by exact_mod_cast hden
  rw [value, value, ← add_div, ← mul_div_assoc, div_lt_div_iff₀ hden' one_pos, mul_assoc]
  exact_mod_cast Iff.rfl

theorem twice_eq_middle (hden : 0 < den) (m n : Nat) :
    2 * (num / den : ℚ) = value m + value n ↔
      2 * (num * one) = (units m + units n) * den := by
  have hden' : (den : ℚ) ≠ 0 := by exact_mod_cast hden.ne'
  rw [value, value, ← add_div, ← mul_div_assoc, div_eq_div_iff hden' one_pos.ne', mul_assoc]
  exact_mod_cast Iff.rfl

/-- Quotients are rounded to the nearest. -/
theorem nearest_nearest (hden : 0 < den) : Nearest (num / den) (nearest num den) := by
  unfold nearest
  extract_lets low twice middle
  obtain ⟨hlow, hhigh⟩ := units_magnitudeBelow (num * one / den)
  have hbelow : value low ≤ num / den := by
    rw [value_le_div hden, ← Nat.le_div_iff_mul_le hden]
    exact hlow
  have habove : (num / den : ℚ) < value (low + 1) := by
    rw [div_lt_value hden, ← Nat.div_lt_iff_lt_mul hden]
    exact hhigh
  split
  case isTrue hinfinity =>
    exact .overflow ((value_strictMono.monotone hinfinity).trans hbelow)
  case isFalse hfinite =>
  rw [Nat.not_le] at hfinite
  split
  case isTrue hlower =>
    apply Nearest.below hfinite hbelow
    · rcases hlower with hlt | ⟨heq, -⟩
      · exact ((twice_lt_middle hden _ _).mpr hlt).le
      · exact ((twice_eq_middle hden _ _).mpr heq).le
    · intro htie
      have heq := (twice_eq_middle hden _ _).mp htie
      rcases hlower with hlt | ⟨-, heven⟩
      · exact absurd heq hlt.ne
      · exact heven
  case isFalse hupper =>
    rw [not_or, not_and] at hupper
    apply Nearest.above hfinite habove.le
    · exact not_lt.mp fun hlt => hupper.1 ((twice_lt_middle hden _ _).mp hlt)
    · intro htie
      have hodd := hupper.2 ((twice_eq_middle hden _ _).mp htie)
      omega

theorem nearest_le (hden : 0 < den) : nearest num den ≤ infinity :=
  (nearest_nearest hden).le

end

end LoxLang.Decimal
