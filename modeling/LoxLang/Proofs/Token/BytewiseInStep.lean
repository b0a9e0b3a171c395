import LoxLang.Proofs.Token.Bytewise
import LoxLang.Proofs.Token.Octets
import LoxLang.Proofs.Token.Partition

/-!
Scanning byte by byte is scanning. The loop stands in a text with what has been scanned, the segment in
progress and what is ahead, all of them whole characters: inside of a character it only is while a string
or a comment is being passed. From there, it does with the bytes what the segmentation does with the
characters that are ahead, and no fault is among the ways to end.
-/

namespace LoxLang.Bytewise

open Segment

variable {α β : Type} {s t : Scanner} {passed taken ahead rest cs : List Char} {c : Char}

theorem bind_ok {x : Loop α} {f : α → Loop β} {a : α} (h : x s = .ok a t) :
    (x >>= f) s = f a t := by
  simp only [bind, EStateM.bind, h]

theorem map_ok {x : Loop α} {f : α → β} {a : α} (h : x s = .ok a t) :
    (f <$> x) s = .ok (f a) t := by
  simp only [Functor.map, EStateM.map, h]

theorem map_error {x : Loop α} {f : α → β} {stop : Stop} (h : x s = .error stop t) :
    (f <$> x) s = .error stop t := by
  simp only [Functor.map, EStateM.map, h]

theorem get_eq (s : Scanner) : (get : Loop Scanner) s = .ok s s := rfl

theorem pure_eq (a : α) (s : Scanner) : (pure a : Loop α) s = .ok a s := rfl

/-! ### Where the loop stands -/

namespace Scanner

/-- The loop with a piece of text behind it that was ahead. -/
def past (s : Scanner) (piece : List Char) : Scanner :=
  { s with current := s.current + String.utf8Len piece, line := s.line + newlines piece }

/-- What has been scanned, what has been taken of the segment in progress and what is ahead. -/
structure Stands (s : Scanner) (passed taken ahead : List Char) : Prop where
  text : s.text = String.ofList (passed ++ (taken ++ ahead))
  start : s.start = String.utf8Len passed
  current : s.current = String.utf8Len (passed ++ taken)

theorem past_past (s : Scanner) (piece piece' : List Char) :
    (s.past piece).past piece' = s.past (piece ++ piece') := by
  simp [past, newlines, Nat.add_assoc]

/-- A piece without line breaks. -/
theorem past_eq_forward (s : Scanner) {piece : List Char} (h : '\n' ∉ piece) :
    s.past piece = s.forward (String.utf8Len piece) := by
  simp [past, forward, newlines, List.count_eq_zero.mpr h]

theorem past_ascii (s : Scanner) (hc : c.toNat < 128) (hbreak : c ≠ '\n') :
    s.past [c] = s.forward 1 := by
  rw [s.past_eq_forward (by simpa using hbreak.symm), String.utf8Len_cons, utf8Size_ascii hc]
  rfl

/-- The index behind a beginning of the text is a boundary. -/
theorem isValid_of_append {text : String} {before behind : List Char} {i : Nat}
    (htext : text = String.ofList (before ++ behind)) (hi : i = String.utf8Len before) :
    (String.Pos.Raw.mk i).isValid text := by
  rw [String.Pos.Raw.isValid_eq_true_iff, String.Pos.Raw.isValid_iff_exists_append]
  refine ⟨String.ofList before, String.ofList behind, ?_, ?_⟩
  · rw [htext, String.ofList_append]
  · rw [String.rawEndPos, String.utf8ByteSize_ofList, hi]

/-- A piece of the text can be sliced. -/
theorem slice_eq (before piece behind : List Char) {low high : Nat}
    (htext : s.text = String.ofList (before ++ piece ++ behind)) (hlow : low = String.utf8Len before)
    (hhigh : high = low + String.utf8Len piece) : slice low high s = .ok (String.ofList piece) s := by
  have hvalidLow : (String.Pos.Raw.mk low).isValid s.text :=
    isValid_of_append (htext.trans (by rw [List.append_assoc])) hlow
  have hvalidHigh : (String.Pos.Raw.mk high).isValid s.text :=
    isValid_of_append htext (by rw [hhigh, hlow, String.utf8Len_append])
  rw [slice, if_pos ⟨by omega, hvalidLow, hvalidHigh⟩, htext, hhigh, hlow, String.extract_of_valid]

namespace Stands

theorem past (h : s.Stands passed taken (ahead ++ rest)) :
    (s.past ahead).Stands passed (taken ++ ahead) rest where
  text := by simp [Scanner.past, h.text]
  start := h.start
  current := by simp [Scanner.past, h.current, Nat.add_assoc]

theorem bytes_eq (h : s.Stands passed taken ahead) :
    s.bytes = octets (passed ++ taken) ++ octets ahead := by
  rw [Scanner.bytes, h.text, bytes_ofList, ← List.append_assoc, octets_append]

/-- The bytes that are ahead are those of the characters that are ahead. -/
theorem bytes_ahead (h : s.Stands passed taken ahead) :
    s.bytes.drop s.current = octets ahead := by
  rw [h.bytes_eq, h.current, ← length_octets, List.drop_left]

theorem length_bytes (h : s.Stands passed taken ahead) :
    s.bytes.length = s.current + String.utf8Len ahead := by
  rw [h.bytes_eq, h.current, List.length_append, length_octets, length_octets]

theorem look (h : s.Stands passed taken ahead) {f : Char → α} (hf : Plain f) :
    f (s.look 0) = (ahead.head?.map f).getD (f '\x00') := by
  have hhead := hf.head?_octets ahead
  rw [← h.bytes_ahead, List.head?_drop] at hhead
  rw [← hhead, Scanner.look, Nat.add_zero]
  cases s.bytes[s.current]? <;> rfl

/-- What is ahead behind a character of ASCII is one byte further. -/
theorem look_next (h : s.Stands passed taken (c :: ahead)) (hc : c.toNat < 128) {f : Char → α}
    (hf : Plain f) : f (s.look 1) = (ahead.head?.map f).getD (f '\x00') := by
  obtain ⟨b, hencode, -⟩ := encode_ascii hc
  have hpast : (s.past [c]).Stands passed (taken ++ [c]) ahead := h.past
  rw [← hpast.look hf]
  simp [Scanner.look, Scanner.past, Scanner.bytes, utf8Size_ascii hc]

theorem lexeme_eq (h : s.Stands passed taken ahead) : lexeme s = .ok (String.ofList taken) s := by
  apply slice_eq passed taken ahead
  · rw [h.text, List.append_assoc]
  · exact h.start
  · rw [h.start, h.current, String.utf8Len_append]

end Stands

end Scanner

/-! ### Single bytes -/

theorem peek_eq (s : Scanner) : peek s = .ok (s.look 0) s := rfl

theorem peekNext_eq (s : Scanner) : peekNext s = .ok (s.look 1) s := rfl

theorem isAtEnd_of_ahead {bs : List UInt8} (h : s.bytes.drop s.current = bs) :
    isAtEnd s = .ok bs.isEmpty s := by
  have hend : bs.isEmpty = decide (s.bytes.length ≤ s.current) := by
    rw [Bool.eq_iff_iff, List.isEmpty_iff, decide_eq_true_iff, ← h, List.drop_eq_nil_iff]
  rw [hend]
  rfl

theorem Scanner.Stands.isAtEnd_eq (h : s.Stands passed taken ahead) :
    isAtEnd s = .ok ahead.isEmpty s := by
  rw [isAtEnd_of_ahead h.bytes_ahead, isEmpty_octets]

theorem advance_of_ahead {b : UInt8} {bs : List UInt8} (h : s.bytes.drop s.current = b :: bs) :
    advance s = .ok (Char.ofUInt8 b) (s.forward 1) := by
  have hbyte : s.bytes[s.current]? = some b := by
    rw [← List.head?_drop, h]
    rfl
  simp only [advance, hbyte]

theorem look_of_ahead {b : UInt8} {bs : List UInt8} (h : s.bytes.drop s.current = b :: bs) :
    s.look 0 = Char.ofUInt8 b := by
  have hbyte : s.bytes[s.current]? = some b := by
    rw [← List.head?_drop, h]
    rfl
  simp only [Scanner.look, Nat.add_zero, hbyte, Option.getD_some]

theorem look_of_end (h : s.bytes.drop s.current = []) : s.look 0 = '\x00' := by
  have hbyte : s.bytes[s.current]? = none := by
    rw [← List.head?_drop, h]
    rfl
  simp only [Scanner.look, Nat.add_zero, hbyte, Option.getD_none]
  rfl

theorem ahead_forward {b : UInt8} {bs : List UInt8} (h : s.bytes.drop s.current = b :: bs) :
    (s.forward 1).bytes.drop (s.forward 1).current = bs := by
  change s.bytes.drop (s.current + 1) = bs
  rw [← List.drop_drop, h]
  rfl

/-! ### Loops over bytes -/

theorem passWhile_bytes {test : Char → Bool} (htest : test '\x00' = false) {bs : List UInt8}
    (n : Nat) (h : s.bytes.drop s.current = bs) (hn : bs.length < n) :
    passWhile test n s =
      .ok () (s.forward (bs.takeWhile (test ∘ Char.ofUInt8)).length) := by
  induction n generalizing s bs with
  | zero => omega
  | succ n ih =>
      rw [passWhile, bind_ok (peek_eq s)]
      cases bs with
      | nil =>
          rw [look_of_end h, htest]
          rfl
      | cons b bs =>
          rw [look_of_ahead h]
          by_cases hb : test (Char.ofUInt8 b)
          · rw [if_pos hb, bind_ok (advance_of_ahead h),
              ih (ahead_forward h) (Nat.lt_of_succ_lt_succ hn),
              List.takeWhile_cons_of_pos (p := test ∘ Char.ofUInt8) hb]
            simp [Scanner.forward, Nat.add_assoc, Nat.add_comm 1]
          · rw [if_neg hb, List.takeWhile_cons_of_neg (p := test ∘ Char.ofUInt8) hb]
            rfl

/-- Passes the characters that satisfy a test of ASCII, none of which is a line break. -/
theorem Scanner.Stands.passWhile_eq (h : s.Stands passed taken ahead) {test : Char → Bool}
    (htest : Plain test) (hzero : test '\x00' = false) (hbreak : test '\n' = false) :
    passWhile test s.passes s = .ok () (s.past (ahead.takeWhile test)) := by
  have hfuel : (octets ahead).length < s.passes := by
    rw [Scanner.passes, h.length_bytes, length_octets]
    omega
  have hline : '\n' ∉ ahead.takeWhile test := by
    intro hmem
    simp [List.mem_takeWhile_imp hmem] at hbreak
  rw [passWhile_bytes hzero _ h.bytes_ahead hfuel, (htest.span_octets ahead).1, length_octets,
    s.past_eq_forward hline]

/-- The body of a string, with its line breaks counted. -/
theorem stringBody_bytes {bs : List UInt8} (n : Nat) (h : s.bytes.drop s.current = bs)
    (hn : bs.length < n) :
    stringBody n s = .ok () { s with
      current := s.current + (bs.takeWhile ((· != '"') ∘ Char.ofUInt8)).length
      line := s.line +
        (bs.takeWhile ((· != '"') ∘ Char.ofUInt8)).countP ((· == '\n') ∘ Char.ofUInt8) } := by
  induction n generalizing s bs with
  | zero => omega
  | succ n ih =>
      rw [stringBody, bind_ok (isAtEnd_of_ahead h), bind_ok (peek_eq s)]
      cases bs with
      | nil => rfl
      | cons b bs =>
          rw [look_of_ahead h]
          by_cases hquote : Char.ofUInt8 b = '"'
          · simp [hquote]
            rfl
          have hlast : bs.length < n := Nat.lt_of_succ_lt_succ hn
          have hgoes : (!(b :: bs).isEmpty && Char.ofUInt8 b != '"') = true := by simp [hquote]
          have htake : (b :: bs).takeWhile ((· != '"') ∘ Char.ofUInt8) =
              b :: bs.takeWhile ((· != '"') ∘ Char.ofUInt8) :=
            List.takeWhile_cons_of_pos (by simpa using hquote)
          rw [if_pos hgoes, bind_ok (advance_of_ahead h), htake, List.length_cons, List.countP_cons]
          by_cases hbreak : Char.ofUInt8 b = '\n'
          · have hahead : (s.forward 1).nextLine.bytes.drop (s.forward 1).nextLine.current = bs :=
              ahead_forward h
            rw [if_pos (beq_iff_eq.mpr hbreak)]
            change stringBody n (s.forward 1).nextLine = _
            rw [ih hahead hlast]
            simp [Scanner.forward, Scanner.nextLine, hbreak, Nat.add_assoc, Nat.add_comm 1]
          · rw [if_neg (by simpa using hbreak)]
            change stringBody n (s.forward 1) = _
            rw [ih (ahead_forward h) hlast]
            simp [Scanner.forward, hbreak, Nat.add_assoc, Nat.add_comm 1]

/-! ### Characters beyond ASCII -/

section Beyond

variable {d : Char}

theorem ne_of_beyond (hc : 128 ≤ c.toNat) (hd : d.toNat < 128) : c ≠ d := by
  rintro rfl
  omega

theorem Plain.of_beyond {f : Char → α} {a : α} (h : ∀ c : Char, 128 ≤ c.toNat → f c = a) :
    Plain f :=
  fun c d hc hd => (h c hc).trans (h d hd).symm

theorem plain_beq (hd : d.toNat < 128) : Plain (· == d) :=
  .of_beyond fun _ hc => beq_false_of_ne (ne_of_beyond hc hd)

theorem plain_bne (hd : d.toNat < 128) : Plain (· != d) :=
  .of_beyond fun _ hc => bne_iff_ne.mpr (ne_of_beyond hc hd)

theorem isDigit_beyond (hc : 128 ≤ c.toNat) : c.isDigit = false := by
  rw [Bool.eq_false_iff, ne_eq, Char.isDigit_iff_toNat]
  simp only [Char.reduceToNat]
  omega

theorem isAlpha_beyond (hc : 128 ≤ c.toNat) : c.isAlpha = false := by
  have halpha : c.isAlpha = (decide (c.val ≥ 'A'.val ∧ c.val ≤ 'Z'.val) ||
      (decide (c.val ≥ 'a'.val) && decide (c.val ≤ 'z'.val))) := rfl
  have hcode : 128 ≤ c.val.toNat := hc
  simp [halpha, UInt32.le_iff_toNat_le]
  omega

theorem isLetter_beyond (hc : 128 ≤ c.toNat) : isLetter c = false := by
  simp [isLetter, isAlpha_beyond hc, ne_of_beyond hc (d := '_') (by decide)]

theorem isWordChar_beyond (hc : 128 ≤ c.toNat) : isWordChar c = false := by
  simp [isWordChar, Char.isAlphanum, isAlpha_beyond hc, isDigit_beyond hc,
    ne_of_beyond hc (d := '_') (by decide)]

theorem isBlank_beyond (hc : 128 ≤ c.toNat) : isBlank c = false := by
  simp [isBlank, ne_of_beyond hc]

theorem ofMark?_beyond (hc : 128 ≤ c.toNat) : Kind.ofMark? c = none := by
  unfold Kind.ofMark?
  split
  case h_16 => rfl
  all_goals exact absurd hc (by decide)

theorem ofMarkEqual?_beyond (hc : 128 ≤ c.toNat) : Kind.ofMarkEqual? c = none := by
  unfold Kind.ofMarkEqual?
  split
  case h_5 => rfl
  all_goals exact absurd hc (by decide)

end Beyond

/-! ### Segments -/

namespace Scanner.Stands

theorem forward (h : s.Stands passed taken (c :: ahead)) (hc : c.toNat < 128) :
    (s.forward 1).Stands passed (taken ++ [c]) ahead where
  text := by simp [Scanner.forward, h.text]
  start := h.start
  current := by simp [Scanner.forward, h.current, utf8Size_ascii hc, Nat.add_assoc]

theorem advance_eq (h : s.Stands passed taken (c :: ahead)) (hc : c.toNat < 128) :
    advance s = .ok c (s.forward 1) := by
  obtain ⟨b, hencode, hshown⟩ := encode_ascii hc
  have hbytes := h.bytes_ahead
  rw [octets_cons, hencode] at hbytes
  rw [advance_of_ahead hbytes, hshown]

theorem accept_eq (h : s.Stands passed taken ahead) (hc : c.toNat < 128) :
    accept c s =
      if ahead.head? = some c then .ok true (s.forward 1) else .ok false s := by
  rw [accept, bind_ok (peek_eq s), bind_ok h.isAtEnd_eq, h.look (plain_beq hc)]
  cases ahead with
  | nil =>
      simp only [List.isEmpty_nil, Bool.not_true, Bool.and_false, List.head?_nil]
      rfl
  | cons d ahead =>
      by_cases hd : d = c <;> simp [hd] <;> rfl

theorem stringBody_eq (h : s.Stands passed taken ahead) :
    stringBody s.passes s = .ok () (s.past (ahead.takeWhile (· != '"'))) := by
  have hfuel : (octets ahead).length < s.passes := by
    rw [Scanner.passes, h.length_bytes, length_octets]
    omega
  have hquote : Plain (· != '"') := plain_bne (by decide)
  have hbreak : ∀ c : Char, 128 ≤ c.toNat → (c == '\n') = false :=
    fun c hc => beq_false_of_ne (ne_of_beyond hc (by decide))
  rw [stringBody_bytes _ h.bytes_ahead hfuel, (hquote.span_octets ahead).1, length_octets,
    (Plain.of_beyond hbreak).countP_octets hbreak]
  rfl

theorem string_closed {body : List Char} (h : s.Stands passed ['"'] ahead)
    (htail : stringTail ahead = (true, body, rest)) :
    string s = .ok ⟨.string, some (.text (String.ofList body.dropLast))⟩ (s.past body) := by
  obtain ⟨inner, hinner, rfl⟩ := stringTail_closed htail
  have happend := stringTail_append ahead
  rw [htail, List.append_assoc] at happend
  subst happend
  have htake : (inner ++ (['"'] ++ rest)).takeWhile (· != '"') = inner := by
    simp [List.takeWhile_append_of_pos (ne_of_not_mem hinner)]
  have hbody : (s.past inner).Stands passed (['"'] ++ inner) ('"' :: rest) := h.past
  have hpast : (s.past inner).forward 1 = s.past (inner ++ ['"']) := by
    rw [← past_past, past_ascii _ (by decide) (by decide)]
  have hsize : '"'.utf8Size = 1 := utf8Size_ascii (by decide)
  have hslice : slice ((s.past (inner ++ ['"'])).start + 1)
      ((s.past (inner ++ ['"'])).current - 1) (s.past (inner ++ ['"'])) =
        .ok (String.ofList inner) (s.past (inner ++ ['"'])) := by
    apply slice_eq (passed ++ ['"']) inner ('"' :: rest)
    · simp [Scanner.past, h.text]
    · simp [Scanner.past, h.start, hsize]
    · simp [Scanner.past, h.start, h.current, hsize]
  rw [string, bind_ok (get_eq s), bind_ok h.stringBody_eq, htake, bind_ok hbody.isAtEnd_eq]
  simp only [List.isEmpty_cons, Bool.false_eq_true, if_false]
  rw [bind_ok (hbody.advance_eq (by decide)), hpast, bind_ok (get_eq _)]
  rw [bind_ok hslice, pure_eq, List.dropLast_concat]

theorem string_open {body : List Char} (h : s.Stands passed ['"'] ahead)
    (htail : stringTail ahead = (false, body, rest)) :
    string s = .error (.refused ⟨(s.past body).line, .unterminatedString⟩) (s.past body) := by
  obtain ⟨hnone, rfl, rfl⟩ := stringTail_open htail
  have htake : body.takeWhile (· != '"') = body :=
    List.takeWhile_eq_self_iff.mpr (ne_of_not_mem hnone)
  have hbody : (s.past body).Stands passed (['"'] ++ body) [] :=
    Stands.past (by rwa [List.append_nil])
  rw [string, bind_ok (get_eq s), bind_ok h.stringBody_eq, htake, bind_ok hbody.isAtEnd_eq]
  rfl

theorem word_eq (h : s.Stands passed [c] ahead) :
    word s = .ok { kind := Kind.ofWord (String.ofList (c :: ahead.takeWhile isWordChar)) }
      (s.past (ahead.takeWhile isWordChar)) := by
  have hpassed : s.Stands passed [c]
      (ahead.takeWhile isWordChar ++ ahead.dropWhile isWordChar) := by
    rwa [List.takeWhile_append_dropWhile]
  have hchars : Plain isWordChar := .of_beyond fun _ => isWordChar_beyond
  rw [word, bind_ok (get_eq s), bind_ok (h.passWhile_eq hchars (by decide) (by decide)),
    bind_ok hpassed.past.lexeme_eq]
  rfl

theorem skipLine_eq (h : s.Stands passed taken ahead) :
    skipLine s = .ok () (s.past (ahead.takeWhile (· != '\n'))) := by
  have hplain : Plain (· != '\n') := plain_bne (by decide)
  have hline : '\n' ∉ ahead.takeWhile (· != '\n') := by
    intro hmem
    simpa using List.mem_takeWhile_imp hmem
  have hfind : (octets ahead).findIdx (Char.ofUInt8 · == '\n') =
      String.utf8Len (ahead.takeWhile (· != '\n')) := by
    have htake : (octets ahead).takeWhile ((· != '\n') ∘ Char.ofUInt8) =
        (octets ahead).take ((octets ahead).findIdx (Char.ofUInt8 · == '\n')) := by
      rw [List.takeWhile_eq_take_findIdx_not]
      simp [bne]
    rw [(hplain.span_octets ahead).1] at htake
    rw [← length_octets, htake, List.length_take, Nat.min_eq_left List.findIdx_le_length]
  rw [past_eq_forward s hline, ← hfind, skipLine, if_pos (by rw [h.length_bytes]; omega),
    h.bytes_ahead, List.findIdx?_eq_guard_findIdx_lt]
  by_cases hbreak : (octets ahead).findIdx (Char.ofUInt8 · == '\n') < (octets ahead).length
  · simp [Option.guard, hbreak]
  · have hend : (octets ahead).findIdx (Char.ofUInt8 · == '\n') = (octets ahead).length :=
      Nat.le_antisymm List.findIdx_le_length (Nat.le_of_not_lt hbreak)
    simp [Option.guard, hend, Scanner.forward, h.length_bytes, length_octets]

/-- Whether a point with a digit behind it is ahead. -/
theorem point_iff (h : s.Stands passed taken ahead) :
    (s.look 0 == '.' && (s.look 1).isDigit) = true ↔
      ∃ d rest, ahead = '.' :: d :: rest ∧ d.isDigit := by
  have hpoint : Plain (· == '.') := plain_beq (by decide)
  have hdigit : Plain Char.isDigit := .of_beyond fun _ => isDigit_beyond
  rw [Bool.and_eq_true, h.look hpoint]
  cases ahead with
  | nil => simp
  | cons c ahead =>
      by_cases hc : c = '.'
      · subst hc
        rw [h.look_next (by decide) hdigit]
        cases ahead <;> simp
      · simp [hc]

/-- What continues a number is its digits and what is passed then. -/
theorem fraction_eq (h : s.Stands passed taken (ahead.dropWhile Char.isDigit)) :
    ∃ tail left, ahead.dropWhile Char.isDigit = tail ++ left ∧
      (numberTail ahead).1 = ahead.takeWhile Char.isDigit ++ tail ∧
      fraction s = .ok () (s.past tail) := by
  rw [fraction, bind_ok (peek_eq _), bind_ok (peekNext_eq _)]
  by_cases hpoint : ∃ d rest, ahead.dropWhile Char.isDigit = '.' :: d :: rest ∧ d.isDigit
  · obtain ⟨d, rest, hrest, hd⟩ := hpoint
    rw [if_pos (h.point_iff.mpr ⟨d, rest, hrest, hd⟩)]
    rw [hrest] at h
    refine ⟨'.' :: (d :: rest).takeWhile Char.isDigit, (d :: rest).dropWhile Char.isDigit, ?_, ?_, ?_⟩
    · rw [List.cons_append, List.takeWhile_append_dropWhile, hrest]
    · simp [numberTail, hrest, hd]
    · have hdigit : Plain Char.isDigit := .of_beyond fun _ => isDigit_beyond
      have hforward : s.past ['.'] = s.forward 1 := s.past_ascii (by decide) (by decide)
      have hdigits := h.forward (by decide)
      rw [bind_ok (h.advance_eq (by decide)), bind_ok (get_eq _),
        hdigits.passWhile_eq hdigit (by decide) (by decide), ← hforward, past_past]
      rfl
  · refine ⟨[], ahead.dropWhile Char.isDigit, rfl, ?_, ?_⟩
    · unfold numberTail
      split
      case h_1 d rest hrest =>
        rw [if_neg fun hd => hpoint ⟨d, rest, hrest, hd⟩, List.append_nil]
      case h_2 => rw [List.append_nil]
    · rw [if_neg (mt h.point_iff.mp hpoint)]
      rfl

theorem number_eq (h : s.Stands passed [c] ahead) :
    number s = .ok ⟨.number,
      some (.number (Decimal.read (String.ofList (c :: (numberTail ahead).1))))⟩
      (s.past (numberTail ahead).1) := by
  have hdigit : Plain Char.isDigit := .of_beyond fun _ => isDigit_beyond
  have hwhole : (s.past (ahead.takeWhile Char.isDigit)).Stands passed
      ([c] ++ ahead.takeWhile Char.isDigit) (ahead.dropWhile Char.isDigit) :=
    Stands.past (by rwa [List.takeWhile_append_dropWhile])
  obtain ⟨tail, left, hleft, htail, hfraction⟩ := hwhole.fraction_eq
  rw [hleft] at hwhole
  have hlexeme := hwhole.past.lexeme_eq
  rw [past_past, List.append_assoc, ← htail] at hlexeme
  rw [number, bind_ok (get_eq s), bind_ok (h.passWhile_eq hdigit (by decide) (by decide)),
    bind_ok hfraction, past_past, ← htail, bind_ok hlexeme]
  rfl

end Scanner.Stands

/-- What a segment is found to be by a loop that is behind it. -/
def found (t : Scanner) : Segment → EStateM.Result Stop Scanner (Option Found)
  | .blank _ => .ok none t
  | .comment _ => .ok none t
  | .lexeme kind text => .ok (some ⟨kind, (Token.mk kind (String.ofList text) t.line).payload⟩) t
  | .stray c => .error (.refused ⟨t.line, .unexpectedCharacter c⟩) t
  | .unclosed _ => .error (.refused ⟨t.line, .unterminatedString⟩) t

/-- A stray character is stepped over as a whole, when its first byte has been taken. -/
theorem stray_eq (h : s.Stands passed [] (c :: ahead)) (hbreak : '\n' ∉ [c]) :
    stray (s.forward 1) = found (s.past [c]) (.stray c) := by
  have htext : (s.forward 1).text = String.ofList (passed ++ (c :: ahead) ++ []) := by
    rw [List.append_nil]
    exact h.text
  have hlength : (s.forward 1).bytes.length = (s.forward 1).start + String.utf8Len (c :: ahead) := by
    change s.bytes.length = _
    rw [h.length_bytes, h.current, List.append_nil]
    exact congrArg (· + _) h.start.symm
  have hstart : s.start = s.current := by rw [h.start, h.current, List.append_nil]
  have hslice : slice (s.forward 1).start (s.forward 1).bytes.length (s.forward 1) =
      .ok (String.ofList (c :: ahead)) (s.forward 1) :=
    Scanner.slice_eq passed (c :: ahead) [] htext h.start hlength
  rw [stray, bind_ok (get_eq _), bind_ok hslice, String.toList_ofList,
    Scanner.past_eq_forward s hbreak]
  change EStateM.Result.error (Stop.refused ⟨s.line, .unexpectedCharacter c⟩)
    { s with current := s.start + c.utf8Size } = _
  simp [hstart, found, Scanner.forward]

theorem dispatch_beyond (hc : 128 ≤ c.toNat) : dispatch c = stray := by
  have hne : ∀ {d : Char}, d.toNat < 128 → ¬(c == d) = true := fun hd h =>
    ne_of_beyond hc hd (beq_iff_eq.mp h)
  have hblank : ¬(c == ' ' || c == '\r' || c == '\t') = true := by
    simp [ne_of_beyond hc]
  have hdigit := Bool.eq_false_iff.mp (isDigit_beyond hc)
  have hletter := Bool.eq_false_iff.mp (isLetter_beyond hc)
  rw [dispatch, if_neg hblank, if_neg (hne (by decide)), if_neg (hne (by decide)),
    if_neg (hne (by decide)), if_neg hdigit, if_neg hletter, dispatchMark,
    ofMark?_beyond hc, ofMarkEqual?_beyond hc]

theorem leading_beyond (hc : 128 ≤ c.toNat) (cs : List Char) :
    leading c cs = (.stray c, cs) := by
  have hslash : c ≠ '/' := ne_of_beyond hc (by decide)
  have hquote : c ≠ '"' := ne_of_beyond hc (by decide)
  simp [leading, mark, isBlank_beyond hc, hslash, hquote, isDigit_beyond hc, isLetter_beyond hc,
    ofMark?_beyond hc, ofMarkEqual?_beyond hc]

theorem scanToken_beyond (h : s.Stands passed [] (c :: ahead)) (hc : 128 ≤ c.toNat) :
    scanToken s = found (s.past [c]) (.stray c) := by
  obtain ⟨b, bs, hencode⟩ := List.exists_cons_of_ne_nil (String.utf8EncodeChar_ne_nil (c := c))
  have hbytes := h.bytes_ahead
  rw [octets_cons, hencode, List.cons_append] at hbytes
  have hb : 128 ≤ (Char.ofUInt8 b).toNat := encode_beyond hc (hencode ▸ List.mem_cons_self)
  have hbreak : '\n' ∉ [c] := by
    rw [List.mem_singleton]
    exact (ne_of_beyond hc (by decide)).symm
  rw [scanToken, bind_ok (advance_of_ahead hbytes), dispatch_beyond hb, stray_eq h hbreak]

/-- An operator or punctuation mark, or what is none. -/
theorem dispatchMark_eq (h : s.Stands passed [] (c :: ahead)) (hc : c.toNat < 128)
    (hbreak : c ≠ '\n') :
    dispatchMark c (s.forward 1) = found (s.past (mark c ahead).1.text) (mark c ahead).1 := by
  have hnext : (s.forward 1).Stands passed [c] ahead := h.forward hc
  have hself : s.past [c] = s.forward 1 := s.past_ascii hc hbreak
  cases hdouble : Kind.ofMarkEqual? c with
  | some double =>
      obtain ⟨single, hsingle⟩ := Kind.ofMark?_of_ofMarkEqual? hdouble
      have haccept := hnext.accept_eq (c := '=') (by decide)
      have hmap : dispatchMark c =
          (fun more => some { kind := if more then double else single }) <$> accept '=' := by
        rw [dispatchMark, hdouble, hsingle]
        rfl
      rw [hmap]
      by_cases hequal : ahead.head? = some '='
      · obtain ⟨cs, rfl⟩ : ∃ cs, ahead = '=' :: cs := List.head?_eq_some_iff.mp hequal
        have hmark : mark c ('=' :: cs) = (.lexeme double [c, '='], cs) := by
          simp [mark, hdouble]
        have hboth : (s.forward 1).forward 1 = s.past [c, '='] := by
          rw [← hself, ← Scanner.past_ascii (c := '=') _ (by decide) (by decide), Scanner.past_past]
          rfl
        rw [if_pos hequal] at haccept
        rw [map_ok haccept, hmark, hboth, found, Token.payload_of_ne (Kind.ne_literal (.inr hdouble))]
        rfl
      · have hmark : mark c ahead = (.lexeme single [c], ahead) := by
          unfold mark
          split
          · exact absurd rfl hequal
          · rw [hsingle]
        rw [if_neg hequal] at haccept
        rw [map_ok haccept, hmark, found, Token.payload_of_ne (Kind.ne_literal (.inl hsingle)), ← hself]
        rfl
  | none =>
      have hmark : mark c ahead = ((Kind.ofMark? c).elim (.stray c) (.lexeme · [c]), ahead) := by
        unfold mark
        rw [hdouble]
        cases Kind.ofMark? c <;> rfl
      rw [hmark, dispatchMark, hdouble]
      cases hsingle : Kind.ofMark? c with
      | some single =>
          rw [← hself]
          simp [found, Token.payload_of_ne (Kind.ne_literal (.inl hsingle)), text, pure_eq]
      | none => exact stray_eq h (by simpa using hbreak.symm)

theorem Scanner.past_forward (s : Scanner) (hc : c.toNat < 128) (hbreak : c ≠ '\n') (tail : List Char) :
    (s.forward 1).past tail = s.past (c :: tail) := by
  rw [← s.past_ascii hc hbreak, Scanner.past_past]
  rfl

theorem ne_of_not_blank (hblank : ¬isBlank c) :
    ¬((c = ' ' ∨ c = '\r') ∨ c = '\t') ∧ c ≠ '\n' := by
  simpa [isBlank] using hblank

theorem dispatch_blank (hblank : isBlank c) :
    dispatch c (s.forward 1) = found (s.past [c]) (.blank c) := by
  by_cases hbreak : c = '\n'
  · subst hbreak
    have hsize : '\n'.utf8Size = 1 := utf8Size_ascii (by decide)
    simp [found, Scanner.past, hsize]
    rfl
  · have hspace : (c == ' ' || c == '\r' || c == '\t') = true := by
      simpa [isBlank, hbreak, or_assoc] using hblank
    have hc : c.toNat < 128 := by
      simp only [Bool.or_eq_true, beq_iff_eq] at hspace
      rcases hspace with (rfl | rfl) | rfl <;> decide
    rw [dispatch, if_pos hspace, pure_eq, s.past_ascii hc hbreak]
    rfl

/-- A slash by itself, or a comment that begins with two of them. -/
theorem dispatch_slash (h : (s.forward 1).Stands passed ['/'] ahead) :
    dispatch '/' (s.forward 1) = found (s.past (leading '/' ahead).1.text) (leading '/' ahead).1 := by
  have hslash : '/'.toNat < 128 ∧ '/' ≠ '\n' := by decide
  have hdispatch : dispatch '/' = (accept '/' >>= fun more =>
      if more then skipLine >>= fun _ => pure none else pure (some { kind := .slash })) := rfl
  have haccept := h.accept_eq (c := '/') (by decide)
  rw [hdispatch]
  by_cases hcomment : ahead.head? = some '/'
  · obtain ⟨cs, rfl⟩ : ∃ cs, ahead = '/' :: cs := List.head?_eq_some_iff.mp hcomment
    have hleading : (leading '/' ('/' :: cs)).1 =
        .comment ('/' :: '/' :: cs.takeWhile (· != '\n')) := by
      simp [leading, isBlank]
    rw [if_pos hcomment] at haccept
    rw [bind_ok haccept, if_pos rfl, bind_ok (h.forward (by decide)).skipLine_eq, hleading,
      Scanner.past_forward _ hslash.1 hslash.2, Scanner.past_forward _ hslash.1 hslash.2]
    rfl
  · have hmark : mark '/' ahead = (.lexeme .slash ['/'], ahead) := rfl
    have hletter : isLetter '/' = false := by decide
    have hleading : (leading '/' ahead).1 = .lexeme .slash ['/'] := by
      simp [leading, isBlank, hcomment, hletter, hmark]
    rw [if_neg hcomment] at haccept
    rw [bind_ok haccept, hleading]
    simp only [Bool.false_eq_true, if_false]
    rw [pure_eq, ← s.past_ascii hslash.1 hslash.2]
    rfl

theorem dispatch_quote (h : (s.forward 1).Stands passed ['"'] ahead) :
    dispatch '"' (s.forward 1) = found (s.past (leading '"' ahead).1.text) (leading '"' ahead).1 := by
  have hquote : '"'.toNat < 128 ∧ '"' ≠ '\n' := by decide
  have hdispatch : dispatch '"' = some <$> string := rfl
  have hblank : isBlank '"' = false := by decide
  rw [hdispatch]
  rcases htail : stringTail ahead with ⟨_ | _, body, rest⟩
  · have hleading : leading '"' ahead = (.unclosed ('"' :: body), rest) := by
      simp [leading, hblank, htail]
    rw [map_error (h.string_open htail), hleading, s.past_forward hquote.1 hquote.2]
    rfl
  · have hleading : leading '"' ahead = (.lexeme .string ('"' :: body), rest) := by
      simp [leading, hblank, htail]
    rw [map_ok (h.string_closed htail), hleading, s.past_forward hquote.1 hquote.2]
    simp [found, text, Token.payload, Token.unquoted]

/-- A number, a word, a mark or what is none of them. -/
theorem dispatch_other (h : s.Stands passed [] (c :: ahead)) (hc : c.toNat < 128)
    (hblank : ¬isBlank c) (hslash : c ≠ '/') (hquote : c ≠ '"') :
    dispatch c (s.forward 1) = found (s.past (leading c ahead).1.text) (leading c ahead).1 := by
  have hnext : (s.forward 1).Stands passed [c] ahead := h.forward hc
  obtain ⟨hspace, hbreak⟩ := ne_of_not_blank hblank
  by_cases hdigit : c.isDigit
  · have hdispatch : dispatch c = some <$> number := by
      simp [dispatch, hspace, hbreak, hslash, hquote, hdigit]
    have hleading : (leading c ahead).1 = .lexeme .number (c :: (numberTail ahead).1) := by
      simp [leading, hblank, hslash, hquote, hdigit]
    rw [hdispatch, map_ok hnext.number_eq, hleading, s.past_forward hc hbreak]
    rfl
  by_cases hletter : isLetter c
  · have hdispatch : dispatch c = some <$> word := by
      simp [dispatch, hspace, hbreak, hslash, hquote, hdigit, hletter]
    have hleading : (leading c ahead).1 = .lexeme
        (Kind.ofWord (String.ofList (c :: ahead.takeWhile isWordChar)))
        (c :: ahead.takeWhile isWordChar) := by
      simp [leading, hblank, hslash, hquote, hdigit, hletter]
    rw [hdispatch, map_ok hnext.word_eq, hleading, s.past_forward hc hbreak, found,
      Token.payload_of_ne (Kind.ofWord_ne_literal _)]
    rfl
  have hdispatch : dispatch c = dispatchMark c := by
    simp [dispatch, hspace, hbreak, hslash, hquote, hdigit, hletter]
  have hleading : leading c ahead = mark c ahead := by
    simp [leading, hblank, hslash, hquote, hdigit, hletter]
  rw [hdispatch, hleading, dispatchMark_eq h hc hbreak]

theorem scanToken_ascii (h : s.Stands passed [] (c :: ahead)) (hc : c.toNat < 128) :
    scanToken s = found (s.past (leading c ahead).1.text) (leading c ahead).1 := by
  rw [scanToken, bind_ok (h.advance_eq hc)]
  by_cases hblank : isBlank c
  · rw [dispatch_blank hblank, leading, if_pos hblank]
    rfl
  by_cases hslash : c = '/'
  · subst hslash
    exact dispatch_slash (h.forward hc)
  by_cases hquote : c = '"'
  · subst hquote
    exact dispatch_quote (h.forward hc)
  exact dispatch_other h hc hblank hslash hquote

/-- What begins a segment is scanned as that segment. -/
theorem scanToken_eq (h : s.Stands passed [] (c :: ahead)) :
    scanToken s = found (s.past (leading c ahead).1.text) (leading c ahead).1 := by
  by_cases hc : c.toNat < 128
  · exact scanToken_ascii h hc
  · rw [Nat.not_lt] at hc
    rw [scanToken_beyond h hc, leading_beyond hc]
    rfl

end LoxLang.Bytewise
