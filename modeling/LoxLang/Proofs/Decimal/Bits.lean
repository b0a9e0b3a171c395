import LoxLang.Proofs.Decimal.Nearest

/-!
Numbers and their words. A magnitude up to that of infinity makes a number with this magnitude and
without a sign. Numbers of this sort, which are all that texts denote, are equal as numbers just if they
are the same; they are told apart by their magnitudes. The negative of such a number has its magnitude
and a sign.
-/

namespace LoxLang.Decimal

open Float.Model UnpackedFloat

/-- Words up to that of infinity are no codes of NaN, whatever their sign. -/
theorem not_isNaNBits {b : UInt64} (h : b.toNat % signBit ≤ infinity) :
    ¬@isNaNBits Format.binary64 b.toBitVec := by
  simp only [isNaNBits, decide_eq_true_eq, not_and, not_not]
  intro hexponent
  rw [unpackExponent_def] at hexponent
  rw [unpackMantissa_def]
  have htop : b.toNat / 2 ^ 52 % 2 ^ 11 = 2 ^ 11 - 1 := by
    have htoNat := congrArg BitVec.toNat hexponent
    simpa [Nat.shiftRight_eq_div_pow] using htoNat
  have hmantissa : b.toNat % 2 ^ 52 = 0 := by
    unfold infinity signBit at h
    omega
  apply BitVec.eq_of_toNat_eq
  simpa using hmantissa

theorem pack_unpack_word {b : UInt64} (h : b.toNat % signBit ≤ infinity) :
    pack Format.binary64 (UnpackedFloat.unpack Format.binary64 b.toBitVec) = b.toBitVec := by
  have hpack := @pack_unpack Format.binary64 b.toBitVec (by decide)
  rwa [if_neg (not_isNaNBits h)] at hpack

theorem toBits_ofBits {b : UInt64} (h : b.toNat % signBit ≤ infinity) :
    (Float.ofBits b).toBits = b :=
  UInt64.toBitVec_inj.mp (pack_unpack_word h)

/-- Numbers with the same bits are the same. -/
theorem toBits_inj {x y : Float} (h : x.toBits = y.toBits) : x = y := by
  obtain ⟨⟨b, hb⟩⟩ := x
  obtain ⟨⟨b', hb'⟩⟩ := y
  obtain rfl : b = b' := h
  rfl

/-- A word with the sign set unpacks to the negative of what it does without. -/
theorem unpack_signed {b b' : UInt64} (h : b.toNat < signBit) (hsigned : b'.toNat = signBit + b.toNat) :
    UnpackedFloat.unpack Format.binary64 b'.toBitVec =
      (UnpackedFloat.unpack Format.binary64 b.toBitVec).neg := by
  unfold signBit at h hsigned
  have hexponent : @unpackExponent Format.binary64 b'.toBitVec =
      @unpackExponent Format.binary64 b.toBitVec := by
    rw [unpackExponent_def, unpackExponent_def]
    apply BitVec.eq_of_toNat_eq
    simp only [BitVec.extractLsb'_toNat, UInt64.toNat_toBitVec, Nat.shiftRight_eq_div_pow]
    omega
  have hmantissa : @unpackMantissa Format.binary64 b'.toBitVec =
      @unpackMantissa Format.binary64 b.toBitVec := by
    rw [unpackMantissa_def, unpackMantissa_def]
    apply BitVec.eq_of_toNat_eq
    simp only [BitVec.extractLsb'_toNat, UInt64.toNat_toBitVec, Nat.shiftRight_zero]
    omega
  have hsign : @unpackSign Format.binary64 b.toBitVec = 0#1 := by
    rw [unpackSign_def]
    apply BitVec.eq_of_toNat_eq
    simp [Nat.shiftRight_eq_div_pow]
    omega
  have hsign' : @unpackSign Format.binary64 b'.toBitVec = 1#1 := by
    rw [unpackSign_def]
    apply BitVec.eq_of_toNat_eq
    simp [Nat.shiftRight_eq_div_pow]
    omega
  unfold UnpackedFloat.unpack
  simp only [hexponent, hmantissa, hsign, hsign']
  split
  case isTrue => split <;> rfl
  case isFalse =>
    split
    case isTrue => split <;> rfl
    case isFalse => rfl

section

variable {mag mag' : Nat}

theorem toBits_ofMagnitude (h : mag ≤ infinity) : (ofMagnitude mag).toBits.toNat = mag := by
  have hword : (UInt64.ofNat mag).toNat = mag := UInt64.toNat_ofNat_of_lt' (h.trans_lt (by decide))
  have hmag : mag % signBit = mag := Nat.mod_eq_of_lt (h.trans_lt (by decide))
  rw [ofMagnitude, toBits_ofBits (by rwa [hword, hmag]), hword]

theorem magnitude_ofMagnitude (h : mag ≤ infinity) : magnitude (ofMagnitude mag) = mag := by
  rw [magnitude, toBits_ofMagnitude h]
  exact Nat.mod_eq_of_lt (h.trans_lt (by decide))

theorem isNegative_ofMagnitude (h : mag ≤ infinity) : isNegative (ofMagnitude mag) = false := by
  rw [isNegative, toBits_ofMagnitude h]
  exact decide_eq_false (not_le_of_gt (h.trans_lt (by decide)))

/-- The negative of a number has its magnitude, and the sign. -/
theorem toBits_neg_ofMagnitude (h : mag ≤ infinity) :
    (-ofMagnitude mag).toBits.toNat = signBit + mag := by
  have hlt : mag < signBit := h.trans_lt (by decide)
  have hsize : signBit + mag < UInt64.size := by
    have hdouble : UInt64.size = signBit + signBit := rfl
    omega
  have hword : (UInt64.ofNat (signBit + mag)).toNat = signBit + mag := UInt64.toNat_ofNat_of_lt' hsize
  have hbits := toBits_ofMagnitude h
  have hunpack := @unpack_signed (ofMagnitude mag).toBits (UInt64.ofNat (signBit + mag))
    (by rwa [hbits]) (by rw [hword, hbits])
  have hneg : (-ofMagnitude mag).toBits.toBitVec = (UInt64.ofNat (signBit + mag)).toBitVec := by
    change pack Format.binary64
      (UnpackedFloat.unpack Format.binary64 (ofMagnitude mag).toBits.toBitVec).neg = _
    rw [← hunpack]
    apply pack_unpack_word
    rwa [hword, Nat.add_mod_left, Nat.mod_eq_of_lt hlt]
  rw [UInt64.toBitVec_inj.mp hneg, hword]

/-- A number is made of its magnitude and its sign. -/
theorem eq_ofMagnitude {x : Float} (h : magnitude x ≤ infinity) :
    x = if isNegative x then -ofMagnitude (magnitude x) else ofMagnitude (magnitude x) := by
  have hword : x.toBits.toNat < signBit + signBit := x.toBits.toNat_lt
  apply toBits_inj
  apply UInt64.toNat_inj.mp
  cases hsign : isNegative x with
  | true =>
      have hle : signBit ≤ x.toBits.toNat := of_decide_eq_true hsign
      have hmag : magnitude x = x.toBits.toNat - signBit := by
        rw [magnitude, Nat.mod_eq_sub_mod hle, Nat.mod_eq_of_lt (by omega)]
      rw [if_pos rfl, toBits_neg_ofMagnitude h]
      omega
  | false =>
      have hlt : x.toBits.toNat < signBit := Nat.lt_of_not_le (of_decide_eq_false hsign)
      rw [if_neg Bool.false_ne_true, toBits_ofMagnitude h, magnitude, Nat.mod_eq_of_lt hlt]

/-- Equality of numbers is that of their magnitudes. -/
theorem beq_ofMagnitude (h : mag ≤ infinity) (h' : mag' ≤ infinity) :
    (ofMagnitude mag == ofMagnitude mag') = true ↔ mag = mag' := by
  have hbits : ∀ {m : Nat} {x : Float}, m ≤ infinity → ofMagnitude m = x → x.toBits.toNat = m := by
    rintro m _ hm rfl
    exact toBits_ofMagnitude hm
  have hnan : ∀ {m : Nat}, m ≤ infinity → ofMagnitude m ≠ Float.nan := by
    intro m hm heq
    have hword := hbits hm heq
    rw [← hword] at hm
    exact absurd hm (by decide +kernel)
  have hsigned : ∀ {m : Nat}, m ≤ infinity → ofMagnitude m ≠ -0 := by
    intro m hm heq
    have hword := hbits hm heq
    rw [← hword] at hm
    exact absurd hm (by decide +kernel)
  rw [Float.beq_iff_ne_nan_and_eq]
  constructor
  · rintro ⟨-, -, heq | ⟨-, heq⟩ | ⟨heq, -⟩⟩
    · rw [← toBits_ofMagnitude h, heq, toBits_ofMagnitude h']
    · exact absurd heq (hsigned h')
    · exact absurd heq (hsigned h)
  · rintro rfl
    exact ⟨hnan h, hnan h, .inl rfl⟩

end

/-! ### Texts of digits -/

theorem readDigits_eq (acc : Nat) (cs : List Char) :
    readDigits acc cs = Nat.ofDigitChars 10 cs acc := by
  fun_induction readDigits acc cs with
  | case1 acc => rw [Nat.ofDigitChars_nil]
  | case2 acc c cs ih => rw [ih, Nat.ofDigitChars_cons]

/-- The digits of a text with a point in it or without. -/
theorem takeWhile_isDigit {cs whole fraction : List Char} (hwhole : ∀ c ∈ whole, c.isDigit)
    (hcs : cs = whole ∧ fraction = [] ∨ cs = whole ++ '.' :: fraction) :
    cs.takeWhile Char.isDigit = whole ∧ (cs.dropWhile Char.isDigit).drop 1 = fraction := by
  rcases hcs with ⟨hcs, rfl⟩ | hcs
  · have hnone : whole.dropWhile Char.isDigit = [] := List.dropWhile_eq_nil_iff.mpr hwhole
    rw [hcs, hnone, List.takeWhile_eq_self_iff.mpr hwhole]
    exact ⟨rfl, rfl⟩
  · rw [hcs, List.takeWhile_append_of_pos hwhole, List.dropWhile_append_of_pos hwhole]
    simp

/-- A text of digits, with a point in front of the last of them, is read as what it says in decimal
notation, rounded to the nearest. -/
theorem nearest_readMagnitude {cs whole fraction : List Char} (hwhole : ∀ c ∈ whole, c.isDigit)
    (hcs : cs = whole ∧ fraction = [] ∨ cs = whole ++ '.' :: fraction) :
    Nearest (Nat.ofDigitChars 10 (whole ++ fraction) 0 / 10 ^ fraction.length) (readMagnitude cs) := by
  have hmagnitude : readMagnitude cs =
      nearest (Nat.ofDigitChars 10 (whole ++ fraction) 0) (10 ^ fraction.length) := by
    simp [readMagnitude, takeWhile_isDigit hwhole hcs, readDigits_eq, Nat.ofDigitChars_append]
  have hden : 0 < 10 ^ fraction.length := Nat.pow_pos (by decide)
  have hnearest := @nearest_nearest (Nat.ofDigitChars 10 (whole ++ fraction) 0) _ hden
  rw [Nat.cast_pow, Nat.cast_ofNat] at hnearest
  rwa [hmagnitude]

/-- A number is what a quotient is rounded to: it is not negative, and its magnitude is the nearest. -/
structure Rounds (q : ℚ) (x : Float) : Prop where
  isNegative : isNegative x = false
  nearest : Nearest q (magnitude x)

theorem rounds_ofMagnitude {q : ℚ} {mag : Nat} (h : Nearest q mag) : Rounds q (ofMagnitude mag) := by
  refine ⟨isNegative_ofMagnitude h.le, ?_⟩
  rwa [magnitude_ofMagnitude h.le]

theorem rounds_read {whole fraction : List Char} {text : String} (hwhole : ∀ c ∈ whole, c.isDigit)
    (htext : text.toList = whole ∧ fraction = [] ∨ text.toList = whole ++ '.' :: fraction) :
    Rounds (Nat.ofDigitChars 10 (whole ++ fraction) 0 / 10 ^ fraction.length) (read text) :=
  rounds_ofMagnitude (nearest_readMagnitude hwhole htext)

end LoxLang.Decimal
