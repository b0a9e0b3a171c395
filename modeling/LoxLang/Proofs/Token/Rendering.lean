import LoxLang.Proofs.Decimal.Bits
import LoxLang.Proofs.Token.Blanks

/-!
Texts that are written token by token. A `Lexeme` is one way to write a token, with what makes it one, and
a `Separator` is a blank with further blanks and closed comments behind it. Scanning a text in which
lexemes stand with separators between them gives back the tokens that were written and nothing else: no
error, no token more or less, each on the line on which its lexeme ends.
-/

namespace LoxLang

open Segment

/-! ### Lexemes -/

/-- A way to write a token. -/
inductive Lexeme where
  | mark (kind : Kind) (c : Char) (h : Mark c kind)
  /-- An operator that ends with an equals sign. -/
  | operator (kind : Kind) (c : Char) (h : MarkEqual c kind)
  | keyword (kind : Kind) (word : String) (h : Keyword word kind)
  | identifier (first : Char) (others : List Char) (hfirst : isLetter first)
    (hothers : ∀ c ∈ others, isWordChar c)
    (h : ∀ kind, ¬Keyword (String.ofList (first :: others)) kind)
  | integer (digits : List Char) (h : digits ≠ []) (hdigits : ∀ c ∈ digits, c.isDigit)
  | decimal (whole fraction : List Char) (hwhole : whole ≠ []) (hfraction : fraction ≠ [])
    (hdigits : ∀ c ∈ whole ++ fraction, c.isDigit)
  | string (body : List Char) (h : '"' ∉ body)

namespace Lexeme

def kind : Lexeme → Kind
  | mark kind _ _ => kind
  | operator kind _ _ => kind
  | keyword kind _ _ => kind
  | identifier .. => .identifier
  | integer .. => .number
  | decimal .. => .number
  | string .. => .string

def text : Lexeme → List Char
  | mark _ c _ => [c]
  | operator _ c _ => [c, '=']
  | keyword _ word _ => word.toList
  | identifier first others _ _ _ => first :: others
  | integer digits _ _ => digits
  | decimal whole fraction _ _ _ => whole ++ '.' :: fraction
  | string body _ => '"' :: (body ++ ['"'])

/-- What a lexeme denotes: a string what is between its quotes, a number the one that it says in decimal
notation, rounded to the nearest, and all others nothing. -/
def Denotes (l : Lexeme) (value : Option Payload) : Prop :=
  match l with
  | string body _ => value = some (.text (String.ofList body))
  | integer digits _ _ =>
    ∃ x, value = some (.number x) ∧ Decimal.Rounds (Nat.ofDigitChars 10 digits 0) x
  | decimal whole fraction _ _ _ =>
    ∃ x, value = some (.number x) ∧
      Decimal.Rounds (Nat.ofDigitChars 10 (whole ++ fraction) 0 / 10 ^ fraction.length) x
  | _ => value = none

/-- Keywords are made of letters. -/
theorem keyword_letters {kind : Kind} {word : String} (h : Keyword word kind) :
    ∃ c cs, word.toList = c :: cs ∧ isLetter c ∧ ∀ d ∈ cs, isWordChar d := by
  have hword : (word.toList.head?.any isLetter && word.toList.tail.all isWordChar) = true := by
    cases h <;> decide
  cases hcs : word.toList with
  | nil => simp [hcs] at hword
  | cons c cs => exact ⟨c, cs, rfl, by simpa [hcs] using hword⟩

theorem spells (l : Lexeme) : Spells l.kind l.text := by
  cases l with
  | mark kind c h => exact .mark h
  | operator kind c h => exact .operator h
  | keyword kind word h =>
      obtain ⟨c, cs, hword, hc, hcs⟩ := keyword_letters h
      have hkind : WordKind (String.ofList (c :: cs)) kind := by
        rw [← hword, String.ofList_toList]
        exact .keyword h
      rw [text, hword]
      exact .word hc hcs hkind
  | identifier first others hfirst hothers h => exact .word hfirst hothers (.identifier h)
  | integer digits h hdigits =>
      obtain ⟨d, ds, rfl⟩ := List.exists_cons_of_ne_nil h
      obtain ⟨hd, hds⟩ := List.forall_mem_cons.mp hdigits
      exact .number hd (.whole hds)
  | decimal whole fraction hwhole hfraction hdigits =>
      obtain ⟨d, ds, rfl⟩ := List.exists_cons_of_ne_nil hwhole
      obtain ⟨e, es, rfl⟩ := List.exists_cons_of_ne_nil hfraction
      obtain ⟨hbefore, hbehind⟩ := List.forall_mem_append.mp hdigits
      obtain ⟨hd, hds⟩ := List.forall_mem_cons.mp hbefore
      obtain ⟨he, hes⟩ := List.forall_mem_cons.mp hbehind
      exact .number hd (.point hds he hes)
  | string body h => exact .string h

/-- The token of a lexeme denotes what the lexeme does, on whatever line it is. -/
theorem denotes_payload (l : Lexeme) (line : Nat) :
    l.Denotes (⟨l.kind, String.ofList l.text, line⟩ : Token).payload := by
  cases l with
  | mark kind c h => exact Token.payload_of_ne (Kind.ne_literal (.inl (mark_iff.mp h)))
  | operator kind c h => exact Token.payload_of_ne (Kind.ne_literal (.inr (markEqual_iff.mp h)))
  | keyword kind word h =>
      have hkind := wordKind_iff.mp (.keyword h)
      exact Token.payload_of_ne (hkind ▸ Kind.ofWord_ne_literal word)
  | identifier => exact @Token.payload_of_ne .identifier ⟨nofun, nofun⟩ _ _
  | integer digits h hdigits =>
      refine ⟨_, rfl, ?_⟩
      have hrounds := @Decimal.rounds_read digits [] (String.ofList digits) hdigits
        (.inl ⟨String.toList_ofList, rfl⟩)
      rwa [List.append_nil, List.length_nil, pow_zero, div_one] at hrounds
  | decimal whole fraction hwhole hfraction hdigits =>
      refine ⟨_, rfl, ?_⟩
      apply Decimal.rounds_read (List.forall_mem_append.mp hdigits).1
      exact .inr String.toList_ofList
  | string body h => simp [Denotes, kind, text, Token.payload, Token.unquoted]

end Lexeme

/-! ### Separators -/

/-- A part of a separator: a blank, or a comment with the end of its line. -/
inductive Gap where
  | blank (c : Char) (h : isBlank c)
  | comment (body : List Char) (h : '\n' ∉ body)

namespace Gap

def segments : Gap → List Segment
  | blank c _ => [.blank c]
  | comment body _ => [.comment ('/' :: '/' :: body), .blank '\n']

def text (g : Gap) : List Char :=
  match g with
  | blank c _ => [c]
  | comment body _ => '/' :: '/' :: (body ++ ['\n'])

theorem items (g : Gap) (line : Nat) (rest : List Segment) :
    itemsFrom line (g.segments ++ rest) = itemsFrom (line + newlines g.text) rest := by
  cases g with
  | blank c h => rfl
  | comment body h =>
      have hlines : newlines ('/' :: '/' :: body) + newlines ['\n'] =
          newlines ('/' :: '/' :: (body ++ ['\n'])) := by simp [newlines]
      simp only [segments, text, List.cons_append, List.nil_append, itemsFrom, Segment.item?,
        Segment.text, Option.toList_none, Nat.add_assoc, hlines]

theorem partition (g : Gap) {rest : List Char} {segs : List Segment} (h : Partition rest segs) :
    Partition (g.text ++ rest) (g.segments ++ segs) := by
  cases g with
  | blank c hc => exact .cons (.blank hc) h
  | comment body hbody =>
      have hbreak : Partition ('\n' :: rest) (.blank '\n' :: segs) := .cons (.blank rfl) h
      have hcomment := Partition.cons (.comment hbody (by simp)) hbreak
      simpa [text, segments, Segment.text] using hcomment

end Gap

/-- What may stand between two lexemes: a blank, and then any blanks and comments. -/
structure Separator where
  first : Char
  isBlank_first : isBlank first
  others : List Gap

namespace Separator

def gaps (s : Separator) : List Gap :=
  .blank s.first s.isBlank_first :: s.others

def segments (s : Separator) : List Segment :=
  s.gaps.flatMap Gap.segments

def text (s : Separator) : List Char :=
  s.gaps.flatMap Gap.text

theorem isBlank_head (s : Separator) (rest : List Char) :
    ∀ c ∈ (s.text ++ rest).head?, isBlank c := by
  simp [text, gaps, Gap.text, s.isBlank_first]

theorem items (s : Separator) (line : Nat) (rest : List Segment) :
    itemsFrom line (s.segments ++ rest) = itemsFrom (line + newlines s.text) rest := by
  unfold segments text
  induction s.gaps generalizing line with
  | nil => rfl
  | cons g gaps ih =>
      have hlines : newlines (g.text ++ gaps.flatMap Gap.text) =
          newlines g.text + newlines (gaps.flatMap Gap.text) := List.count_append
      rw [List.flatMap_cons, List.flatMap_cons, List.append_assoc, g.items, ih, hlines,
        Nat.add_assoc]

theorem partition (s : Separator) {rest : List Char} {segs : List Segment}
    (h : Partition rest segs) : Partition (s.text ++ rest) (s.segments ++ segs) := by
  unfold segments text
  induction s.gaps with
  | nil => exact h
  | cons g gaps ih =>
      rw [List.flatMap_cons, List.flatMap_cons, List.append_assoc, List.append_assoc]
      exact g.partition ih

end Separator

/-! ### Renderings -/

/-- Lexemes written one after the other, with the separators of a choice between them. -/
def rendered : List Lexeme → (Nat → Separator) → List Char
  | [], _ => []
  | [l], _ => l.text
  | l :: m :: rest, choice =>
    l.text ++ ((choice 0).text ++ rendered (m :: rest) (choice ∘ Nat.succ))

/-- The segments of what is written. -/
def renderedSegments : List Lexeme → (Nat → Separator) → List Segment
  | [], _ => []
  | [l], _ => [.lexeme l.kind l.text]
  | l :: m :: rest, choice =>
    .lexeme l.kind l.text ::
      ((choice 0).segments ++ renderedSegments (m :: rest) (choice ∘ Nat.succ))

/-- The tokens of lexemes that are written from a line on, each on the line on which it ends. -/
def renderedTokens (line : Nat) (ls : List Lexeme) (choice : Nat → Separator) : List Token :=
  ls.mapIdx fun n l =>
    ⟨l.kind, String.ofList l.text, line + newlines (rendered (ls.take (n + 1)) choice)⟩

theorem partition_rendered (ls : List Lexeme) (choice : Nat → Separator) :
    Partition (rendered ls choice) (renderedSegments ls choice) := by
  fun_induction rendered ls choice with
  | case1 => exact .nil
  | case2 l choice =>
      have hlast := Partition.cons (@Cut.before_blank _ _ [] l.spells (by simp)) .nil
      simpa [renderedSegments, Segment.text] using hlast
  | case3 l m rest choice ih =>
      exact .cons (Cut.before_blank l.spells ((choice 0).isBlank_head _)) ((choice 0).partition ih)

theorem newlines_append (xs ys : List Char) : newlines (xs ++ ys) = newlines xs + newlines ys :=
  List.count_append

theorem renderedTokens_cons (line : Nat) (l m : Lexeme) (rest : List Lexeme)
    (choice : Nat → Separator) :
    renderedTokens line (l :: m :: rest) choice =
      ⟨l.kind, String.ofList l.text, line + newlines l.text⟩ ::
        renderedTokens (line + newlines l.text + newlines (choice 0).text) (m :: rest)
          (choice ∘ Nat.succ) := by
  unfold renderedTokens
  rw [List.mapIdx_cons]
  congr 1
  apply List.mapIdx_eq_mapIdx_iff.mpr
  intro n _
  have htaken : rendered ((l :: m :: rest).take (n + 1 + 1)) choice =
      l.text ++ ((choice 0).text ++ rendered ((m :: rest).take (n + 1)) (choice ∘ Nat.succ)) := rfl
  simp only [htaken, newlines_append, Nat.add_assoc]

theorem items_rendered (line : Nat) (ls : List Lexeme) (choice : Nat → Separator) :
    itemsFrom line (renderedSegments ls choice) =
      (renderedTokens line ls choice).map .token ++
        [.token (Token.eof (line + newlines (rendered ls choice)))] := by
  fun_induction rendered ls choice generalizing line with
  | case1 => rfl
  | case2 l choice => rfl
  | case3 l m rest choice ih =>
      rw [renderedTokens_cons, renderedSegments, itemsFrom, (choice 0).items, ih]
      simp only [newlines_append, Nat.add_assoc, Segment.text, Segment.item?, Option.toList_some,
        List.map_cons, List.nil_append, List.cons_append]

/-- Whatever lexemes are written, with whatever separators between them, scanning the text gives the
tokens that were written and the one for the end. They have the kinds and the texts of the lexemes,
denote what these denote, and are on the lines on which these end. -/
theorem scan_rendered (ls : List Lexeme) (choice : Nat → Separator) :
    scan (String.ofList (rendered ls choice)) =
        (renderedTokens 1 ls choice).map .token ++
          [.token (Token.eof (1 + newlines (rendered ls choice)))] ∧
      List.Forall₂ (fun l t => Lexeme.Denotes l t.payload) ls (renderedTokens 1 ls choice) := by
  constructor
  · rw [scan, String.toList_ofList, ← (partition_rendered ls choice).eq_segments, items_rendered]
  · apply List.forall₂_iff_get.mpr
    refine ⟨by simp [renderedTokens], fun n h h' => ?_⟩
    simp only [renderedTokens, List.get_eq_getElem, List.getElem_mapIdx]
    exact Lexeme.denotes_payload _ _

end LoxLang
