import LoxLang.Proofs.Token.BytewiseAnswers

/-!
Scanning loses nothing. The segments of the one partition of a text yield its items: a lexeme its token, and
what begins no token or is left open an error, each on the line on which the segment ends. Scanning gives
these items, and so does going through the text byte by byte, which never meets with a fault. What a number
denotes is not said here.
-/

namespace LoxLang

/-- The items that segments yield when they lie behind a piece of text that has been passed. -/
inductive Itemized : List Char → List Segment → List Item → Prop
  | ending {passed : List Char} : Itemized passed [] [.token ⟨.eof, "", 1 + newlines passed⟩]
  | blank {passed : List Char} {c : Char} {segs : List Segment} {items : List Item}
    (hrest : Itemized (passed ++ [c]) segs items) : Itemized passed (.blank c :: segs) items
  | comment {passed text : List Char} {segs : List Segment} {items : List Item}
    (hrest : Itemized (passed ++ text) segs items) : Itemized passed (.comment text :: segs) items
  | lexeme {passed text : List Char} {kind : Kind} {segs : List Segment} {items : List Item}
    (hrest : Itemized (passed ++ text) segs items) :
    Itemized passed (.lexeme kind text :: segs)
      (.token ⟨kind, String.ofList text, 1 + newlines (passed ++ text)⟩ :: items)
  | stray {passed : List Char} {c : Char} {segs : List Segment} {items : List Item}
    (hrest : Itemized (passed ++ [c]) segs items) :
    Itemized passed (.stray c :: segs)
      (.error ⟨1 + newlines (passed ++ [c]), .unexpectedCharacter c⟩ :: items)
  | unclosed {passed text : List Char} {segs : List Segment} {items : List Item}
    (hrest : Itemized (passed ++ text) segs items) :
    Itemized passed (.unclosed text :: segs)
      (.error ⟨1 + newlines (passed ++ text), .unterminatedString⟩ :: items)

/-- What scanning makes of segments is what they yield. -/
theorem Itemized.of_segments (passed : List Char) (segs : List Segment) :
    Itemized passed segs (itemsFrom (1 + newlines passed) segs) := by
  induction segs generalizing passed with
  | nil => exact .ending
  | cons s segs ih =>
      have hline : 1 + newlines passed + newlines s.text = 1 + newlines (passed ++ s.text) := by
        simp only [newlines, List.count_append, Nat.add_assoc]
      have hrest := ih (passed ++ s.text)
      rw [itemsFrom, hline]
      cases s with
      | blank c => exact .blank hrest
      | comment text => exact .comment hrest
      | lexeme kind text => exact .lexeme hrest
      | stray c => exact .stray hrest
      | unclosed text => exact .unclosed hrest

/-- If no lexeme is a token for the end, then only the last item is one. -/
theorem itemsFrom_ending (line : Nat) {segs : List Segment}
    (h : ∀ kind text, .lexeme kind text ∈ segs → kind ≠ .eof) :
    ∃ items, itemsFrom line segs =
        items ++ [.token ⟨.eof, "", line + newlines (segs.flatMap Segment.text)⟩] ∧
      ∀ t, .token t ∈ items → t.kind ≠ .eof := by
  induction segs generalizing line with
  | nil => exact ⟨[], rfl, nofun⟩
  | cons s segs ih =>
      obtain ⟨items, hitems, hplain⟩ := ih (line + newlines s.text) fun kind text hmem =>
        h kind text (List.mem_cons_of_mem s hmem)
      refine ⟨(s.item? (line + newlines s.text)).toList ++ items, ?_, ?_⟩
      · rw [itemsFrom, hitems, List.append_assoc]
        simp only [newlines, List.flatMap_cons, List.count_append, Nat.add_assoc]
      · intro t ht
        rcases List.mem_append.mp ht with ht | ht
        · cases s with
          | lexeme kind text =>
              obtain rfl : t = _ := by simpa [Segment.item?] using ht
              exact h kind text List.mem_cons_self
          | _ => simp [Segment.item?] at ht
        · exact hplain t ht

/-- The bytes of a string that stands between others. -/
theorem extract_append (a b c : String) :
    (a ++ (b ++ c)).toByteArray.extract a.utf8ByteSize (a ++ b).utf8ByteSize = b.toByteArray := by
  have hskip := ByteArray.extract_append_size_add (a := a.toByteArray)
    (b := b.toByteArray ++ c.toByteArray) (i := 0) (j := b.toByteArray.size)
  rw [Nat.add_zero, ByteArray.extract_append_eq_left rfl] at hskip
  rw [String.toByteArray_append, String.toByteArray_append, String.utf8ByteSize_append]
  exact hskip

/-- What is said of scanning a text that has been cut into segments. -/
structure Lossless (source : String) (segs : List Segment) : Prop where
  partition : Partition source.toList segs
  unique : ∀ segs', Partition source.toList segs' → segs' = segs
  /-- Every segment lies between two boundaries of characters, and is what is between them. -/
  boundaries : ∀ before s behind, segs = before ++ s :: behind →
    let low := String.ofList (before.flatMap Segment.text)
    let high := String.ofList ((before ++ [s]).flatMap Segment.text)
    low.rawEndPos.IsValid source ∧ high.rawEndPos.IsValid source ∧
      source.toByteArray.extract low.utf8ByteSize high.utf8ByteSize =
        (String.ofList s.text).toByteArray
  unclosed : ∀ before body behind, segs = before ++ .unclosed body :: behind → behind = []
  /-- A string denotes what is between its quotes. -/
  strings : ∀ text, .lexeme .string text ∈ segs → ∃ body, '"' ∉ body ∧
    text = '"' :: (body ++ ['"']) ∧ ∀ line,
      (⟨.string, String.ofList text, line⟩ : Token).payload = some (.text (String.ofList body))
  items : Itemized [] segs (scan source)
  /-- The end comes once, and last. -/
  ending : ∃ items, scan source = items ++ [.token ⟨.eof, "", 1 + newlines source.toList⟩] ∧
    ∀ t, .token t ∈ items → t.kind ≠ .eof
  /-- Going byte by byte meets with no fault, ends every segment at its boundary, and answers with these
  items and with what their tokens denote, and with nothing behind them. -/
  bytewise : ∀ n, ∃ scanner, Bytewise.calls n (Bytewise.Scanner.new source) =
      .ok ((List.range n).map fun i => (scan source)[i]?.map Bytewise.Answer.of) scanner ∧
    scanner.spans <+: Bytewise.spans segs ∧
    ((scan source).length ≤ n → scanner.spans = Bytewise.spans segs)

/-- The items of a source text are those of its one partition, whose segments lose no character. -/
theorem scan_lossless (source : String) : Lossless source (segments source.toList) := by
  have hpartition := partition_segments source.toList
  constructor
  case partition => exact hpartition
  case unique => exact fun segs' h => h.eq_segments
  case boundaries =>
    intro before s behind heq low high
    have hhigh : high = low ++ String.ofList s.text := by
      simp [high, low, String.ofList_append]
    have hsource : source = high ++ String.ofList (behind.flatMap Segment.text) := by
      have htext := hpartition.text_eq
      rw [heq] at htext
      rw [hhigh, ← String.toList_inj, htext]
      simp [low]
    have hlow : source = low ++ (String.ofList s.text ++
        String.ofList (behind.flatMap Segment.text)) := by
      rw [← String.append_assoc, ← hhigh, ← hsource]
    refine ⟨?_, ?_, ?_⟩
    · exact String.Pos.Raw.isValid_iff_exists_append.mpr ⟨low, _, hlow, rfl⟩
    · exact String.Pos.Raw.isValid_iff_exists_append.mpr ⟨high, _, hsource, rfl⟩
    · rw [hlow, hhigh]
      exact extract_append low _ _
  case unclosed =>
    intro before body behind heq
    rw [heq] at hpartition
    exact hpartition.behind_unclosed
  case strings =>
    intro text hmem
    obtain ⟨body, hbody, rfl⟩ := (hpartition.spells hmem).of_string
    refine ⟨body, hbody, rfl, ?_⟩
    intro line
    simp [Token.payload, Token.unquoted]
  case items => exact Itemized.of_segments [] _
  case ending =>
    obtain ⟨items, hitems, hplain⟩ := itemsFrom_ending 1 fun kind text hmem =>
      (hpartition.spells hmem).ne_eof
    rw [flatMap_text_segments] at hitems
    exact ⟨items, hitems, hplain⟩
  case bytewise =>
    intro n
    obtain ⟨scanner, hcalls, hleft⟩ := Bytewise.calls_eq n (.start source)
    refine ⟨scanner, hcalls, hleft.spans_prefix, ?_⟩
    intro hn
    rw [List.drop_eq_nil_of_le hn] at hleft
    exact hleft.spans_eq

end LoxLang
