import LoxLang.Proofs.Token.BytewiseInStep

/-!
The answers of a scanner that goes byte by byte. Between two segments, a scanner stands behind some of the
segments of its text and in front of the others. Its next answer is the first item that those in front of it
yield, and it then stands in front of fewer. After the item for the end, there are no answers any more.
-/

namespace LoxLang.Bytewise

variable {s t : Scanner} {segs before behind : List Segment} {items : List Item} {n : Nat}

/-- The answer that an item is, with what its token denotes. -/
def Answer.of : Item → Answer
  | .token t => .token t t.payload
  | .error e => .error e

/-- The number of bytes that segments take. -/
def size (segs : List Segment) : Nat :=
  String.utf8Len (segs.flatMap Segment.text)

/-- The indices of bytes that segments lie between, from left to right. -/
def spans (segs : List Segment) : List (Nat × Nat) :=
  (List.range segs.length).map fun i => (size (segs.take i), size (segs.take (i + 1)))

theorem spans_concat (segs : List Segment) (seg : Segment) :
    spans (segs ++ [seg]) = spans segs ++ [(size segs, size (segs ++ [seg]))] := by
  have hearlier : ∀ i ∈ List.range segs.length, (size ((segs ++ [seg]).take i),
      size ((segs ++ [seg]).take (i + 1))) = (size (segs.take i), size (segs.take (i + 1))) := by
    intro i hi
    have hlt : i < segs.length := List.mem_range.mp hi
    rw [List.take_append_of_le_length (by omega), List.take_append_of_le_length (by omega)]
  have hall : (segs ++ [seg]).take (segs.length + 1) = segs ++ [seg] :=
    List.take_of_length_le (by simp)
  rw [spans, List.length_append, List.length_singleton, List.range_succ, List.map_append,
    List.map_congr_left hearlier, List.map_singleton, hall, List.take_left]
  rfl

theorem spans_prefix (segs rest : List Segment) : spans segs <+: spans (segs ++ rest) := by
  induction rest generalizing segs with
  | nil => simp
  | cons seg rest ih =>
      have hconcat := ih (segs ++ [seg])
      rw [spans_concat, List.append_assoc] at hconcat
      exact (List.prefix_append ..).trans hconcat

theorem itemsFrom_ne_nil (line : Nat) (segs : List Segment) : itemsFrom line segs ≠ [] := by
  induction segs generalizing line with
  | nil => exact List.cons_ne_nil _ _
  | cons seg segs ih => exact List.append_ne_nil_of_right_ne_nil _ (ih _)

/-- A scanner that stands between segments. -/
structure Scanner.Between (s : Scanner) (before behind : List Segment) : Prop where
  text : s.text = String.ofList (before.flatMap Segment.text ++ behind.flatMap Segment.text)
  segments : behind = LoxLang.segments (behind.flatMap Segment.text)
  current : s.current = size before
  line : s.line = 1 + newlines (before.flatMap Segment.text)
  done : s.done = false
  spans : s.spans = Bytewise.spans before

/-- A scanner that has so many items left to answer with. -/
inductive Remaining (segs : List Segment) : Scanner → List Item → Prop
  | between {s : Scanner} {before behind : List Segment} (hsegs : segs = before ++ behind)
    (h : s.Between before behind) : Remaining segs s (itemsFrom s.line behind)
  | done {s : Scanner} (hdone : s.done = true) (hspans : s.spans = spans segs) : Remaining segs s []

namespace Scanner.Between

theorem stands (h : s.Between before behind) :
    s.begun.Stands (before.flatMap Segment.text) [] (behind.flatMap Segment.text) where
  text := h.text
  start := h.current
  current := by
    rw [List.append_nil]
    exact h.current

theorem isAtEnd_eq (h : s.Between before behind) :
    isAtEnd s = .ok (behind.flatMap Segment.text).isEmpty s := by
  have hbytes : s.bytes.drop s.current = octets (behind.flatMap Segment.text) :=
    h.stands.bytes_ahead
  rw [isAtEnd_of_ahead hbytes, isEmpty_octets]

/-- The segment behind which a scanner stands is the one that is cut off next. -/
theorem cut {seg : Segment} (h : s.Between before (seg :: behind)) : ∃ c cs,
    (seg :: behind).flatMap Segment.text = c :: cs ∧ seg = (Segment.leading c cs).1 ∧
      behind.flatMap Segment.text = (Segment.leading c cs).2 := by
  have hsegments := h.segments
  cases htext : (seg :: behind).flatMap Segment.text with
  | nil =>
      rw [htext, LoxLang.segments] at hsegments
      cases hsegments
  | cons c cs =>
      rw [htext, LoxLang.segments] at hsegments
      obtain ⟨rfl, hbehind⟩ := List.cons.inj hsegments
      refine ⟨c, cs, rfl, rfl, ?_⟩
      rw [hbehind, flatMap_text_segments]

/-- Behind one more segment. -/
theorem past {seg : Segment} (h : s.Between before (seg :: behind)) :
    (s.begun.past seg.text).noted.Between (before ++ [seg]) behind := by
  obtain ⟨c, cs, htext, hseg, hrest⟩ := h.cut
  have hsegments := h.segments
  rw [htext, LoxLang.segments] at hsegments
  have hsize : s.current + String.utf8Len seg.text = size (before ++ [seg]) := by
    simp [h.current, size]
  constructor
  case text => simp [Scanner.noted, Scanner.past, Scanner.begun, h.text]
  case segments => rw [hrest, ← (List.cons.inj hsegments).2]
  case current => exact hsize
  case line => simp [Scanner.noted, Scanner.past, Scanner.begun, h.line, newlines, Nat.add_assoc]
  case done => exact h.done
  case spans =>
    rw [spans_concat, ← h.spans, ← hsize, ← h.current]
    rfl

/-- What one turn of the loop finds. -/
theorem scanToken_eq {seg : Segment} (h : s.Between before (seg :: behind)) :
    scanToken s.begun = found (s.begun.past seg.text) seg := by
  obtain ⟨c, cs, htext, rfl, -⟩ := h.cut
  have hstands := h.stands
  rw [htext] at hstands
  exact Bytewise.scanToken_eq hstands

/-- The lexeme of a token is its segment. -/
theorem lexeme_eq {seg : Segment} (h : s.Between before (seg :: behind)) :
    lexeme (s.begun.past seg.text).noted =
      .ok (String.ofList seg.text) (s.begun.past seg.text).noted := by
  have hbehind : (s.begun.past seg.text).Stands (before.flatMap Segment.text) seg.text
      (behind.flatMap Segment.text) := h.stands.past
  exact Scanner.Stands.lexeme_eq ⟨hbehind.text, hbehind.start, hbehind.current⟩

end Scanner.Between

theorem modify_eq (f : Scanner → Scanner) (s : Scanner) :
    (modify f : Loop PUnit) s = .ok ⟨⟩ (f s) := rfl

theorem attempt_ok {α : Type} {x : Loop α} {a : α} (h : x s = .ok a t) :
    attempt x s = .ok (.ok a) t := by
  simp only [attempt, h]

theorem attempt_refused {α : Type} {x : Loop α} {e : LexicalError}
    (h : x s = .error (.refused e) t) : attempt x s = .ok (.error e) t := by
  simp only [attempt, h]

/-- The first item that is left is the next answer. -/
theorem answerLoop_eq (h : s.Between before behind) (hn : behind.length < n) :
    ∃ item items t, itemsFrom s.line behind = item :: items ∧
      answerLoop n s = .ok (Answer.of item) t ∧ Remaining (before ++ behind) t items := by
  induction behind generalizing s before n with
  | nil =>
      obtain ⟨n, rfl⟩ := Nat.exists_eq_succ_of_ne_zero (Nat.ne_of_gt hn)
      refine ⟨_, _, { s with done := true }, rfl, ?_, .done rfl ?_⟩
      · rw [answerLoop, bind_ok h.isAtEnd_eq, List.flatMap_nil, List.isEmpty_nil, if_pos rfl]
        rfl
      · rw [List.append_nil]
        exact h.spans
  | cons seg behind ih =>
      obtain ⟨n, rfl⟩ := Nat.exists_eq_succ_of_ne_zero (Nat.ne_of_gt (Nat.zero_lt_of_lt hn))
      obtain ⟨c, cs, htext, -, -⟩ := h.cut
      rw [answerLoop, bind_ok h.isAtEnd_eq, htext]
      simp only [List.isEmpty_cons, Bool.false_eq_true, if_false]
      rw [bind_ok (modify_eq _ s)]
      have hnext := h.past
      have hscan := h.scanToken_eq
      have hlater : ∀ seg', before ++ seg' :: behind = before ++ [seg'] ++ behind :=
        fun seg' => by rw [List.append_assoc, List.singleton_append]
      rw [hlater]
      cases seg with
      | blank c =>
          rw [bind_ok (attempt_ok hscan), bind_ok (modify_eq _ _)]
          exact ih hnext (Nat.lt_of_succ_lt_succ hn)
      | comment text =>
          rw [bind_ok (attempt_ok hscan), bind_ok (modify_eq _ _)]
          exact ih hnext (Nat.lt_of_succ_lt_succ hn)
      | lexeme kind text =>
          have hlexeme := h.lexeme_eq
          rw [bind_ok (attempt_ok hscan), bind_ok (modify_eq _ _)]
          refine ⟨_, _, _, rfl, ?_, .between rfl hnext⟩
          exact bind_ok hlexeme
      | stray c =>
          rw [bind_ok (attempt_refused hscan), bind_ok (modify_eq _ _)]
          exact ⟨_, _, _, rfl, rfl, .between rfl hnext⟩
      | unclosed text =>
          rw [bind_ok (attempt_refused hscan), bind_ok (modify_eq _ _)]
          exact ⟨_, _, _, rfl, rfl, .between rfl hnext⟩

/-- One call takes the first item that is left, if there is one. -/
theorem next_eq (h : Remaining segs s items) :
    ∃ t, next s = .ok (items.head?.map Answer.of) t ∧ Remaining segs t items.tail := by
  cases h with
  | @between before behind hsegs h =>
      have hlength : behind.length < s.passes := by
        have hle := length_segments_le (behind.flatMap Segment.text)
        rw [← h.segments] at hle
        have hchars := length_le_utf8Len (behind.flatMap Segment.text)
        have hbytes := h.stands.length_bytes
        change s.bytes.length = s.current + _ at hbytes
        rw [Scanner.passes]
        omega
      obtain ⟨item, items, t, hitems, hanswer, hleft⟩ := answerLoop_eq h hlength
      refine ⟨t, ?_, ?_⟩
      · rw [next, bind_ok (get_eq s), h.done, hitems]
        exact map_ok hanswer
      · rw [hitems, hsegs]
        exact hleft
  | done hdone hspans =>
      refine ⟨s, ?_, .done hdone hspans⟩
      rw [next, bind_ok (get_eq s), if_pos hdone]
      rfl

theorem calls_eq (n : Nat) (h : Remaining segs s items) :
    ∃ t, calls n s = .ok ((List.range n).map fun i => items[i]?.map Answer.of) t ∧
      Remaining segs t (items.drop n) := by
  induction n generalizing s items with
  | zero => exact ⟨s, rfl, h⟩
  | succ n ih =>
      obtain ⟨t, hnext, hleft⟩ := next_eq h
      obtain ⟨u, hcalls, hrest⟩ := ih hleft
      refine ⟨u, ?_, ?_⟩
      · rw [calls, bind_ok hnext, bind_ok hcalls, pure_eq, List.range_succ_eq_map, List.map_cons,
          List.map_map, List.head?_eq_getElem?]
        congr 2
        refine List.map_congr_left fun i _ => ?_
        rw [List.getElem?_tail]
        rfl
      · simpa using hrest

/-! ### A whole text -/

namespace Remaining

theorem spans_prefix (h : Remaining segs s items) : s.spans <+: spans segs := by
  cases h with
  | between hsegs h =>
      rw [h.spans, hsegs]
      exact Bytewise.spans_prefix ..
  | done _ hspans => exact hspans ▸ List.prefix_rfl

/-- A scanner without items left has noted all segments. -/
theorem spans_eq (h : Remaining segs s []) : s.spans = spans segs := by
  generalize hitems : ([] : List Item) = items at h
  cases h with
  -- As long as the end has not been told, there is an item left for it.
  | between => exact absurd hitems.symm (itemsFrom_ne_nil _ _)
  | done _ hspans => exact hspans

theorem start (source : String) :
    Remaining (segments source.toList) (Scanner.new source) (scan source) := by
  have hbetween : (Scanner.new source).Between [] (segments source.toList) := by
    constructor
    case text =>
      rw [List.flatMap_nil, List.nil_append, flatMap_text_segments, String.ofList_toList]
      rfl
    case segments => rw [flatMap_text_segments]
    case current | line | done | spans => rfl
  exact .between rfl hbetween

end Remaining

end LoxLang.Bytewise
