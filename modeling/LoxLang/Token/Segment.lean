import LoxLang.Token.Kind

/-!
Segmentation of source text. Every text is cut, from left to right, into blanks, comments, lexemes,
characters that begin no token and at most one string without its closing quote. `leading` cuts off
the first segment and `segments` repeats it; `flatMap_text_segments` says that no character is lost.
-/

namespace LoxLang

/-- A piece of source text. -/
inductive Segment where
  | blank (c : Char)
  | comment (text : List Char)
  | lexeme (kind : Kind) (text : List Char)
  | stray (c : Char)
  | unclosed (text : List Char)
deriving DecidableEq

namespace Segment

def text : Segment → List Char
  | blank c => [c]
  | comment text => text
  | lexeme _ text => text
  | stray c => [c]
  | unclosed text => text

def isBlank (c : Char) : Bool :=
  c == ' ' || c == '\r' || c == '\t' || c == '\n'

/-- Letters that may begin a word: the ASCII letters and the underscore. -/
def isLetter (c : Char) : Bool :=
  c.isAlpha || c == '_'

def isWordChar (c : Char) : Bool :=
  c.isAlphanum || c == '_'

/-- Splits off what continues a number: digits, and a point with digits behind it. -/
def numberTail (cs : List Char) : List Char × List Char :=
  let whole := cs.takeWhile Char.isDigit
  match cs.dropWhile Char.isDigit with
  | '.' :: d :: rest =>
    if d.isDigit then
      (whole ++ '.' :: d :: rest.takeWhile Char.isDigit, rest.dropWhile Char.isDigit)
    else (whole, '.' :: d :: rest)
  | rest => (whole, rest)

/-- Splits off what continues a string that a quote has opened; the flag tells whether it is
closed. -/
def stringTail (cs : List Char) : Bool × List Char × List Char :=
  match cs.dropWhile (· != '"') with
  | [] => (false, cs, [])
  | quote :: rest => (true, cs.takeWhile (· != '"') ++ [quote], rest)

/-- Cuts an operator or punctuation mark off, the longer of two that fit. -/
def mark (c : Char) (cs : List Char) : Segment × List Char :=
  match Kind.ofMarkEqual? c, cs with
  | some kind, '=' :: rest => (lexeme kind [c, '='], rest)
  | _, _ =>
    match Kind.ofMark? c with
    | some kind => (lexeme kind [c], cs)
    | none => (stray c, cs)

/-- Cuts the first segment off a text that begins with `c`. -/
def leading (c : Char) (cs : List Char) : Segment × List Char :=
  if isBlank c then (blank c, cs)
  else if c == '/' && cs.head? == some '/' then
    (comment (c :: cs.takeWhile (· != '\n')), cs.dropWhile (· != '\n'))
  else if c == '"' then
    match stringTail cs with
    | (true, body, rest) => (lexeme .string (c :: body), rest)
    | (false, body, rest) => (unclosed (c :: body), rest)
  else if c.isDigit then
    let (tail, rest) := numberTail cs
    (lexeme .number (c :: tail), rest)
  else if isLetter c then
    let word := c :: cs.takeWhile isWordChar
    (lexeme (Kind.ofWord (String.ofList word)) word, cs.dropWhile isWordChar)
  else mark c cs

theorem numberTail_append (cs : List Char) : (numberTail cs).1 ++ (numberTail cs).2 = cs := by
  unfold numberTail
  have h := List.takeWhile_append_dropWhile (p := Char.isDigit) (l := cs)
  split
  · rename_i d rest hd
    rw [hd] at h
    split
    · simpa [List.takeWhile_append_dropWhile] using h
    · exact h
  · exact h

theorem stringTail_append (cs : List Char) :
    (stringTail cs).2.1 ++ (stringTail cs).2.2 = cs := by
  unfold stringTail
  have h := List.takeWhile_append_dropWhile (p := (· != '"')) (l := cs)
  split
  · simp
  · rename_i hd
    rw [hd] at h
    simpa using h

theorem mark_append (c : Char) (cs : List Char) :
    (mark c cs).1.text ++ (mark c cs).2 = c :: cs := by
  unfold mark
  split
  · rfl
  · split <;> rfl

/-- A segment and what is left after it make up the text. -/
theorem leading_append (c : Char) (cs : List Char) :
    (leading c cs).1.text ++ (leading c cs).2 = c :: cs := by
  unfold leading
  split
  · rfl
  split
  · simp [text, List.takeWhile_append_dropWhile]
  split
  · have h := stringTail_append cs
    split <;> rename_i hs <;> rw [hs] at h <;> simpa [text] using h
  split
  · simpa [text] using numberTail_append cs
  split
  · simp [text, List.takeWhile_append_dropWhile]
  · exact mark_append c cs

theorem text_leading_ne_nil (c : Char) (cs : List Char) : (leading c cs).1.text ≠ [] := by
  unfold leading
  split
  · simp [text]
  split
  · simp [text]
  split
  · split <;> simp [text]
  split
  · simp [text]
  split
  · simp [text]
  · unfold mark
    split
    · simp [text]
    · split <;> simp [text]

theorem length_leading_le (c : Char) (cs : List Char) :
    (leading c cs).2.length ≤ cs.length := by
  have h := congrArg List.length (leading_append c cs)
  have h0 := List.length_pos_iff.mpr (text_leading_ne_nil c cs)
  simp only [List.length_append, List.length_cons] at h
  omega

end Segment

/-- The segments of a text, from left to right. -/
def segments : List Char → List Segment
  | [] => []
  | c :: cs => (Segment.leading c cs).1 :: segments (Segment.leading c cs).2
termination_by text => text.length
decreasing_by
  have := Segment.length_leading_le c cs
  simp only [List.length_cons]
  omega

/-- The segments of a text make it up. -/
theorem flatMap_text_segments (text : List Char) :
    (segments text).flatMap Segment.text = text := by
  fun_induction segments text with
  | case1 => rfl
  | case2 c cs ih => rw [List.flatMap_cons, ih, Segment.leading_append]

theorem length_segments_le (text : List Char) : (segments text).length ≤ text.length := by
  fun_induction segments text with
  | case1 => exact Nat.le_refl _
  | case2 c cs ih =>
      have := Segment.length_leading_le c cs
      simp only [List.length_cons]
      omega

end LoxLang
