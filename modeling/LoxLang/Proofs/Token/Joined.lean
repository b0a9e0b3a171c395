import LoxLang.Proofs.Syntax.Move
import LoxLang.Proofs.Token.Items

/-!
Two texts with a line break between them. A line break ends every segment but a string that is open, so
that the first text is cut as if nothing were behind it, and the second one as if it stood alone, on later
lines.
-/

namespace LoxLang

/-! ### Cutting at a line break -/

theorem takeWhile_append_stop {α : Type} {p : α → Bool} {a : α} (ha : p a = false) (xs ys : List α) :
    (xs ++ a :: ys).takeWhile p = xs.takeWhile p ∧
      (xs ++ a :: ys).dropWhile p = xs.dropWhile p ++ a :: ys := by
  induction xs with
  | nil => simp [ha]
  | cons x xs ih => by_cases hx : p x <;> simp [hx, ih]

theorem takeWhile_append_of_dropWhile {α : Type} {p : α → Bool} {xs : List α}
    (h : xs.dropWhile p ≠ []) (ys : List α) :
    (xs ++ ys).takeWhile p = xs.takeWhile p ∧ (xs ++ ys).dropWhile p = xs.dropWhile p ++ ys := by
  induction xs with
  | nil => exact absurd rfl h
  | cons x xs ih =>
      by_cases hx : p x
      · rw [List.dropWhile_cons_of_pos hx] at h
        simp [hx, ih h]
      · simp [hx]

namespace Segment

/-- A string that is open at the end of its text. -/
def IsOpen : Segment → Prop
  | unclosed _ => True
  | _ => False

theorem numberTail_break (cs rest : List Char) :
    numberTail (cs ++ '\n' :: rest) = ((numberTail cs).1, (numberTail cs).2 ++ '\n' :: rest) := by
  obtain ⟨htake, hdrop⟩ := takeWhile_append_stop (p := Char.isDigit) (a := '\n') (by decide) cs rest
  unfold numberTail
  rw [htake, hdrop]
  rcases hcs : cs.dropWhile Char.isDigit with _ | ⟨c, _ | ⟨d, tail⟩⟩
  · rfl
  · by_cases hc : c = '.'
    · subst hc
      rfl
    · simp [hc]
  · by_cases hc : c = '.'
    · subst hc
      obtain ⟨htake', hdrop'⟩ :=
        takeWhile_append_stop (p := Char.isDigit) (a := '\n') (by decide) tail rest
      by_cases hd : d.isDigit <;> simp [hd, htake', hdrop']
    · simp [hc]

theorem stringTail_break {cs body left : List Char} (h : stringTail cs = (true, body, left))
    (rest : List Char) : stringTail (cs ++ '\n' :: rest) = (true, body, left ++ '\n' :: rest) := by
  unfold stringTail at h ⊢
  have hclosed : cs.dropWhile (· != '"') ≠ [] := by
    intro hnil
    rw [hnil] at h
    cases h
  obtain ⟨htake, hdrop⟩ := takeWhile_append_of_dropWhile hclosed ('\n' :: rest)
  rw [htake, hdrop]
  rcases hcs : cs.dropWhile (· != '"') with _ | ⟨quote, tail⟩
  · exact absurd hcs hclosed
  · rw [hcs] at h
    cases h
    rfl

theorem mark_break (c : Char) (cs rest : List Char) :
    mark c (cs ++ '\n' :: rest) = ((mark c cs).1, (mark c cs).2 ++ '\n' :: rest) := by
  unfold mark
  rcases cs with _ | ⟨d, cs⟩
  · cases Kind.ofMarkEqual? c <;> cases Kind.ofMark? c <;> rfl
  · by_cases hd : d = '='
    · subst hd
      cases Kind.ofMarkEqual? c <;> cases Kind.ofMark? c <;> rfl
    · cases Kind.ofMarkEqual? c <;> cases Kind.ofMark? c <;> simp [hd]

/-- A line break behind a text leaves its first segment as it is, unless that is an open string. -/
theorem leading_break {c : Char} {cs : List Char} (h : ¬(leading c cs).1.IsOpen) (rest : List Char) :
    leading c (cs ++ '\n' :: rest) = ((leading c cs).1, (leading c cs).2 ++ '\n' :: rest) := by
  have hhead : ((cs ++ '\n' :: rest).head? == some '/') = (cs.head? == some '/') := by
    cases cs <;> rfl
  unfold leading at h ⊢
  rw [hhead]
  split
  · rfl
  split
  · obtain ⟨htake, hdrop⟩ :=
      takeWhile_append_stop (p := (· != '\n')) (a := '\n') (by decide) cs rest
    rw [htake, hdrop]
  split
  · rcases htail : stringTail cs with ⟨closed, body, left⟩
    cases closed with
    | true => rw [stringTail_break htail]
    | false => simp_all [IsOpen]
  split
  · rw [numberTail_break]
  split
  · obtain ⟨htake, hdrop⟩ := takeWhile_append_stop (p := isWordChar) (a := '\n') (by decide) cs rest
    rw [htake, hdrop]
  · exact mark_break c cs rest

end Segment

/-- Texts that are cut apart by a line break. -/
theorem segments_break {text : List Char} (h : ∀ s ∈ segments text, ¬s.IsOpen) (rest : List Char) :
    segments (text ++ '\n' :: rest) = segments text ++ .blank '\n' :: segments rest := by
  fun_induction segments text with
  | case1 =>
      rw [List.nil_append, segments]
      rfl
  | case2 c cs ih =>
      rw [List.cons_append, segments, Segment.leading_break (h _ (List.mem_cons_self ..))]
      dsimp only
      rw [ih fun s hs => h s (List.mem_cons_of_mem _ hs)]
      rfl

/-! ### Items -/

/-- The lexical errors of segments that begin on a line. -/
def errorsFrom (line : Nat) (segs : List Segment) : List LexicalError :=
  lexicalErrorsOf (itemsFrom line segs)

theorem errorsFrom_cons (line : Nat) (s : Segment) (rest : List Segment) :
    errorsFrom line (s :: rest) = lexicalErrorsOf (s.item? (line + newlines s.text)).toList ++
      errorsFrom (line + newlines s.text) rest :=
  List.filterMap_append

/-- Whether there are lexical errors does not depend on the line. -/
theorem errorsFrom_eq_nil_iff (line : Nat) (segs : List Segment) :
    errorsFrom line segs = [] ↔
      ∀ s ∈ segs, lexicalErrorsOf (s.item? 0).toList = [] := by
  induction segs generalizing line with
  | nil => simp [errorsFrom, itemsFrom, lexicalErrorsOf]
  | cons s rest ih =>
      rw [errorsFrom_cons, List.append_eq_nil_iff, ih, List.forall_mem_cons]
      refine and_congr_left fun _ => ?_
      cases s <;> simp [Segment.item?, lexicalErrorsOf]

theorem not_isOpen_of_errors {s : Segment} (h : lexicalErrorsOf (s.item? 0).toList = []) :
    ¬s.IsOpen := by
  cases s with
  | unclosed text => simp [Segment.item?, lexicalErrorsOf] at h
  | _ => exact id

theorem tokensFrom_append (line : Nat) (segs segs' : List Segment) :
    tokensFrom line (segs ++ segs') = tokensFrom line segs ++ tokensFrom (lastLine line segs) segs' := by
  induction segs generalizing line with
  | nil => rfl
  | cons s rest ih =>
      have hline : lastLine line (s :: rest) = lastLine (line + newlines s.text) rest := by
        simp only [lastLine, newlines, List.flatMap_cons, List.count_append, Nat.add_assoc]
      rw [List.cons_append, hline]
      cases s <;> simp [tokensFrom, ih, Segment.text]

theorem tokensFrom_moved (line lines : Nat) (segs : List Segment) :
    tokensFrom (line + lines) segs = (tokensFrom line segs).map (Token.moved ⟨0, lines⟩) := by
  induction segs generalizing line with
  | nil => rfl
  | cons s rest ih =>
      have hline : ∀ k, line + lines + k = line + k + lines := fun k => by omega
      cases s <;> simp [tokensFrom, hline, ih, Token.moved]

/-- What scanning two texts with a line break between them gives. -/
theorem textTokens_break {a : String} (ha : lexicalErrorsOf (scan a) = []) (b : String) :
    textTokens (a ++ "\n" ++ b) =
      textTokens a ++ (textTokens b).map (Token.moved ⟨0, newlines a.toList + 1⟩) := by
  have hclosed : ∀ s ∈ segments a.toList, ¬s.IsOpen := fun s hs =>
    not_isOpen_of_errors ((errorsFrom_eq_nil_iff 1 _).mp ha s hs)
  have htext : (a ++ "\n" ++ b).toList = a.toList ++ '\n' :: b.toList := by
    simp [String.toList_append]
  have hlast : lastLine 1 (segments a.toList) = 1 + newlines a.toList := by
    rw [lastLine, flatMap_text_segments]
  rw [textTokens, htext, segments_break hclosed, tokensFrom_append, hlast, textTokens, textTokens,
    ← tokensFrom_moved]
  rfl

/-- Segments without errors in front of those of a text add none to it. -/
theorem lexicalErrors_of_segments {a b : String} {before : List Segment}
    (hsegments : segments a.toList = before ++ segments b.toList)
    (hbefore : ∀ s ∈ before, lexicalErrorsOf (s.item? 0).toList = [])
    (hb : lexicalErrorsOf (scan b) = []) : lexicalErrorsOf (scan a) = [] := by
  refine (errorsFrom_eq_nil_iff 1 _).mpr ?_
  rw [hsegments]
  exact List.forall_mem_append.mpr ⟨hbefore, (errorsFrom_eq_nil_iff 1 _).mp hb⟩

theorem lexicalErrors_break {a b : String} (ha : lexicalErrorsOf (scan a) = [])
    (hb : lexicalErrorsOf (scan b) = []) : lexicalErrorsOf (scan (a ++ "\n" ++ b)) = [] := by
  have hclosed := (errorsFrom_eq_nil_iff 1 _).mp ha
  have htext : (a ++ "\n" ++ b).toList = a.toList ++ '\n' :: b.toList := by
    simp [String.toList_append]
  have hsegments : segments (a ++ "\n" ++ b).toList =
      (segments a.toList ++ [.blank '\n']) ++ segments b.toList := by
    rw [htext, segments_break fun s hs => not_isOpen_of_errors (hclosed s hs), List.append_assoc]
    rfl
  apply lexicalErrors_of_segments hsegments _ hb
  exact List.forall_mem_append.mpr ⟨hclosed, List.forall_mem_singleton.mpr rfl⟩

end LoxLang
