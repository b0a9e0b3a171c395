import LoxLang.Proofs.Session.Printed
import LoxLang.Proofs.Token.Numbers

/-!
Evaluating what is printed for a number. The text is that of digits, behind a minus sign if the number has
one: it scans as one token or two, is read as a literal or the negative of one, and comes to a number with
the same bits. That holds of all finite numbers, the negative zero too, and leaves the session as it was.
-/

namespace LoxLang

open Decimal Grammar Scope

/-! ### Scanning -/

/-- A minus sign is a token, whatever is behind it. -/
theorem segments_minus (cs : List Char) :
    segments ('-' :: cs) = .lexeme .minus ['-'] :: segments cs := by
  have hfirst : Segment.leading '-' cs = (.lexeme .minus ['-'], cs) := rfl
  rw [segments, hfirst]

theorem toList_minus (text : String) : ("-" ++ text).toList = '-' :: text.toList :=
  String.toList_append

theorem textTokens_minus (text : String) :
    textTokens ("-" ++ text) = ⟨.minus, "-", 1⟩ :: textTokens text := by
  rw [textTokens, toList_minus, segments_minus]
  rfl

theorem lexicalErrors_minus {text : String} (h : lexicalErrorsOf (scan text) = []) :
    lexicalErrorsOf (scan ("-" ++ text)) = [] := by
  have hsegments : segments ("-" ++ text).toList = [.lexeme .minus ['-']] ++ segments text.toList := by
    rw [toList_minus, segments_minus]
    rfl
  exact lexicalErrors_of_segments hsegments (List.forall_mem_singleton.mpr rfl) h

/-! ### Reading -/

section

variable {text : String} {q : ℚ} {mag : Nat} {i : Identity}

theorem derives_number (hexpresses : Expresses text.toList q) (hnearest : Nearest q mag) :
    lexicalErrorsOf (scan text) = [] ∧
      Derives (.expr .primary (.literal (.number (ofMagnitude mag)))) ⟨textTokens text, i⟩ ⟨[], i⟩ := by
  have hsegments := segments_of_spells (spells_number_iff.mpr ⟨q, hexpresses⟩)
  constructor
  · rw [scan, hsegments]
    rfl
  · have hread : read (String.ofList text.toList) = ofMagnitude mag :=
      Expresses.read (by rwa [String.toList_ofList]) hnearest
    rw [textTokens, hsegments, ← hread]
    exact @Derives.numberLiteral [] i ⟨.number, String.ofList text.toList, _⟩ rfl

theorem Source.expression_number (hexpresses : Expresses text.toList q) (hnearest : Nearest q mag) :
    (Source.expression text i).tree? = some (.literal (.number (ofMagnitude mag))) ∧
      (Source.expression text i).nextId = i := by
  obtain ⟨hlexical, hliteral⟩ := derives_number (i := i) hexpresses hnearest
  exact Source.expression_iff.mpr ⟨hlexical, .loosened 9 hliteral⟩

theorem Source.expression_negative (hexpresses : Expresses text.toList q) (hnearest : Nearest q mag) :
    (Source.expression ("-" ++ text) i).tree? =
        some (.unary ⟨.minus, "-", 1⟩ (.literal (.number (ofMagnitude mag)))) ∧
      (Source.expression ("-" ++ text) i).nextId = i := by
  obtain ⟨hlexical, hliteral⟩ := derives_number (i := i) hexpresses hnearest
  refine Source.expression_iff.mpr ⟨lexicalErrors_minus hlexical, ?_⟩
  rw [textTokens_minus]
  have hoperand : Derives (.expr .unary (.literal (.number (ofMagnitude mag))))
    ⟨textTokens text, i⟩ ⟨[], i⟩ := .loosened 2 hliteral
  exact .loosened 7 (.unary (.inr rfl) hoperand)

end

/-! ### Running -/

/-- An expression that names nothing and has no effect leaves the session as it was. -/
theorem Session.evaluate_pure {s : Session} {fuel : Nat} {text : String} {e : Expr} {v : Value}
    (hread : (Source.expression text s.nextId).tree? = some e ∧
      (Source.expression text s.nextId).nextId = s.nextId)
    (hfound : resolveExpression e = ⟨[], []⟩)
    (hrun : ∀ σ m, Eval.evaluate σ fuel e m = .ok v m) :
    s.evaluate fuel text = some ⟨.ok, [], some v, s⟩ := by
  obtain ⟨htree, hnext⟩ := hread
  simp only [evaluate, whenRead, htree, hnext, resolved, hfound, perform, hrun]
  rfl

theorem expresses_magnitude {mag : Nat} (h : mag ≤ infinity) : ∃ q, Nearest q mag ∧
    Expresses (if isWhole mag then wholeDigits mag else plain.finiteText mag).toList q := by
  split
  case isTrue hwhole =>
    have hexpresses := expresses_digitsOf (wholePart mag) false
    rw [← value_of_whole hwhole, if_neg Bool.false_ne_true, String.append_empty] at hexpresses
    exact ⟨_, .self h, hexpresses⟩
  case isFalse => exact Layout.expresses_plain h

/-- The text of a finite number evaluates to this number. -/
theorem Session.evaluate_numberText (s : Session) (fuel : Nat) {x : Float}
    (hfinite : magnitude x < infinity) :
    s.evaluate (fuel + 2) (numberText x) = some ⟨.ok, [], some (.number x), s⟩ := by
  have hx := eq_ofMagnitude hfinite.le
  obtain ⟨q, hnearest, hexpresses⟩ := expresses_magnitude hfinite.le
  generalize hdigits : (if isWhole (magnitude x) then wholeDigits (magnitude x)
    else plain.finiteText (magnitude x)) = digits at hexpresses
  have htext : numberText x = (if isNegative x then "-" else "") ++ digits := by
    rw [numberText, signed, if_neg hfinite.not_gt, if_neg hfinite.ne, hdigits]
  rw [htext]
  cases hsign : isNegative x with
  | true =>
      rw [hsign, if_pos rfl] at hx
      rw [if_pos rfl, hx]
      exact s.evaluate_pure (Source.expression_negative hexpresses hnearest) rfl fun _ _ => rfl
  | false =>
      rw [hsign, if_neg Bool.false_ne_true] at hx
      rw [if_neg Bool.false_ne_true, String.empty_append, hx]
      exact s.evaluate_pure (Source.expression_number hexpresses hnearest) rfl fun _ _ => rfl

/-- What is printed for a finite number evaluates to this number, bit for bit, in every session. -/
theorem printed_numbers_evaluate (s : Session) (fuel : Nat) {b : UInt64}
    (hfinite : b.toNat % signBit < infinity) :
    ∃ x text, x.toBits = b ∧
      (∀ q : Machine, q.output.Takes → Eval.printValue (.number x) q =
        .ok () { q with output := q.output.append (text ++ "\n") }) ∧
      s.evaluate (fuel + 2) text = some ⟨.ok, [], some (.number x), s⟩ := by
  have hbits := toBits_ofBits hfinite.le
  refine ⟨.ofBits b, numberText (.ofBits b), hbits, fun q hq => ?_, s.evaluate_numberText fuel ?_⟩
  · exact Eval.printValue_eq hq _
  · rwa [magnitude, hbits]

/-- The text of the negative zero evaluates to it, and not to zero. -/
theorem printed_numbers_evaluate_zero :
    ∃ x text, x.toBits = 0x8000000000000000 ∧
      (∀ q : Machine, q.output.Takes → Eval.printValue (.number x) q =
        .ok () { q with output := q.output.append (text ++ "\n") }) ∧
      (Session.initial [] .unlimited).evaluate 2 text =
        some ⟨.ok, [], some (.number x), .initial [] .unlimited⟩ :=
  printed_numbers_evaluate (.initial [] .unlimited) 0 (by decide)

end LoxLang
