import Mathlib.Data.List.TakeWhile
import LoxLang.Proofs.Token.Joined

/-!
The cutting of a text, said without a scanner in it. `Spells` lists the spellings of tokens, `Cut`
says which segment may stand in front of what is left of a text, and a partition is a text cut off
segment by segment. Every text has one partition, and it is the one that scanning goes by: a comment
wherever there can be one, the longest spelling of a token otherwise, and no segment that is shorter
than a character.
-/

namespace LoxLang

open Segment

/-! ### Spellings -/

/-- What continues a number behind its first digit. -/
inductive NumberTail : List Char → Prop
  | whole {ds : List Char} (hds : ∀ d ∈ ds, d.isDigit) : NumberTail ds
  | point {ds es : List Char} {e : Char} (hds : ∀ d ∈ ds, d.isDigit) (he : e.isDigit)
    (hes : ∀ d ∈ es, d.isDigit) : NumberTail (ds ++ '.' :: e :: es)

/-- Operators and punctuation of one character. -/
inductive Mark : Char → Kind → Prop
  | leftParen : Mark '(' .leftParen
  | rightParen : Mark ')' .rightParen
  | leftBrace : Mark '{' .leftBrace
  | rightBrace : Mark '}' .rightBrace
  | comma : Mark ',' .comma
  | dot : Mark '.' .dot
  | minus : Mark '-' .minus
  | plus : Mark '+' .plus
  | semicolon : Mark ';' .semicolon
  | slash : Mark '/' .slash
  | star : Mark '*' .star
  | bang : Mark '!' .bang
  | equal : Mark '=' .equal
  | greater : Mark '>' .greater
  | less : Mark '<' .less

/-- Operators that end with an equals sign, by the character in front of it. -/
inductive MarkEqual : Char → Kind → Prop
  | bangEqual : MarkEqual '!' .bangEqual
  | equalEqual : MarkEqual '=' .equalEqual
  | greaterEqual : MarkEqual '>' .greaterEqual
  | lessEqual : MarkEqual '<' .lessEqual

/-- The words that are tokens of their own kinds. -/
inductive Keyword : String → Kind → Prop
  | kwAnd : Keyword "and" .kwAnd
  | kwClass : Keyword "class" .kwClass
  | kwElse : Keyword "else" .kwElse
  | kwFalse : Keyword "false" .kwFalse
  | kwFun : Keyword "fun" .kwFun
  | kwFor : Keyword "for" .kwFor
  | kwIf : Keyword "if" .kwIf
  | kwNil : Keyword "nil" .kwNil
  | kwOr : Keyword "or" .kwOr
  | kwPrint : Keyword "print" .kwPrint
  | kwReturn : Keyword "return" .kwReturn
  | kwSuper : Keyword "super" .kwSuper
  | kwThis : Keyword "this" .kwThis
  | kwTrue : Keyword "true" .kwTrue
  | kwVar : Keyword "var" .kwVar
  | kwWhile : Keyword "while" .kwWhile

/-- The kind of token that a word is as a whole. -/
inductive WordKind (word : String) : Kind → Prop
  | keyword {kind : Kind} (h : Keyword word kind) : WordKind word kind
  | identifier (h : ∀ kind, ¬Keyword word kind) : WordKind word .identifier

/-- The spellings of tokens. -/
inductive Spells : Kind → List Char → Prop
  | mark {kind : Kind} {c : Char} (h : Mark c kind) : Spells kind [c]
  | operator {kind : Kind} {c : Char} (h : MarkEqual c kind) : Spells kind [c, '=']
  | number {d : Char} {tail : List Char} (hd : d.isDigit) (htail : NumberTail tail) :
    Spells .number (d :: tail)
  | string {body : List Char} (hbody : '"' ∉ body) : Spells .string ('"' :: (body ++ ['"']))
  | word {c : Char} {cs : List Char} {kind : Kind} (hc : isLetter c) (hcs : ∀ d ∈ cs, isWordChar d)
    (hkind : WordKind (String.ofList (c :: cs)) kind) : Spells kind (c :: cs)

/-- A segment that may be cut off in front of the rest of a text. -/
inductive Cut : Segment → List Char → Prop
  | blank {c : Char} {rest : List Char} (h : isBlank c) : Cut (.blank c) rest
  | comment {body rest : List Char} (hbody : '\n' ∉ body) (hend : ∀ c ∈ rest.head?, c = '\n') :
    Cut (.comment ('/' :: '/' :: body)) rest
  | lexeme {kind : Kind} {text rest : List Char} (hspells : Spells kind text)
    (hcomment : ¬['/', '/'] <+: text ++ rest)
    (hlongest : ∀ kind' text', Spells kind' text' → text' <+: text ++ rest →
      text'.length ≤ text.length) : Cut (.lexeme kind text) rest
  | stray {c : Char} {rest : List Char} (hblank : ¬isBlank c) (hquote : c ≠ '"')
    (hnone : ∀ kind text, Spells kind text → ¬text <+: c :: rest) : Cut (.stray c) rest
  | unclosed {body : List Char} (hbody : '"' ∉ body) : Cut (.unclosed ('"' :: body)) []

/-- A text that is cut into segments from left to right. -/
inductive Partition : List Char → List Segment → Prop
  | nil : Partition [] []
  | cons {s : Segment} {segs : List Segment} {rest : List Char} (hs : Cut s rest)
    (hrest : Partition rest segs) : Partition (s.text ++ rest) (s :: segs)

/-! ### Tables -/

theorem mark_iff {c : Char} {kind : Kind} : Mark c kind ↔ Kind.ofMark? c = some kind := by
  constructor
  · intro h
    cases h <;> rfl
  · intro h
    unfold Kind.ofMark? at h
    split at h <;> cases h <;> constructor

theorem markEqual_iff {c : Char} {kind : Kind} :
    MarkEqual c kind ↔ Kind.ofMarkEqual? c = some kind := by
  constructor
  · intro h
    cases h <;> rfl
  · intro h
    unfold Kind.ofMarkEqual? at h
    split at h <;> cases h <;> constructor

theorem keyword_iff {word : String} {kind : Kind} :
    Keyword word kind ↔ (word, kind) ∈ Kind.keywords := by
  have htable : ∀ p ∈ Kind.keywords, Keyword p.1 p.2 := by
    simp only [Kind.keywords, List.forall_mem_cons]
    exact ⟨.kwAnd, .kwClass, .kwElse, .kwFalse, .kwFun, .kwFor, .kwIf, .kwNil, .kwOr, .kwPrint,
      .kwReturn, .kwSuper, .kwThis, .kwTrue, .kwVar, .kwWhile, nofun⟩
  constructor
  · intro h
    cases h <;> decide
  · exact htable _

/-- The table of keywords gives every word its kind. -/
theorem wordKind_iff {word : String} {kind : Kind} :
    WordKind word kind ↔ kind = Kind.ofWord word := by
  have hkeywords : ∀ p ∈ Kind.keywords, Kind.ofWord p.1 = p.2 := by decide
  have hkeyword : ∀ {kind}, Keyword word kind → kind = Kind.ofWord word := fun h =>
    (hkeywords _ (keyword_iff.mp h)).symm
  constructor
  · intro h
    cases h with
    | keyword h => exact hkeyword h
    | identifier h =>
        rcases Kind.ofWord_cases word with hidentifier | htable
        · exact hidentifier.symm
        · exact absurd (keyword_iff.mpr htable) (h _)
  · rintro rfl
    by_cases h : ∃ kind, Keyword word kind
    · obtain ⟨kind, hkind⟩ := h
      exact .keyword (hkeyword hkind ▸ hkind)
    · have hnone : ∀ kind, ¬Keyword word kind := fun kind hkind => h ⟨kind, hkind⟩
      have hidentifier : Kind.ofWord word = .identifier :=
        (Kind.ofWord_cases word).resolve_right fun htable => hnone _ (keyword_iff.mpr htable)
      rw [hidentifier]
      exact .identifier hnone

/-! ### First characters -/

theorem isLetter_of_isDigit {c : Char} (h : c.isDigit) : isLetter c = false := by
  have hdigit : 48 ≤ c.toNat ∧ c.toNat ≤ 57 := Char.isDigit_iff_toNat.mp h
  have hunderscore : (c == '_') = false := by
    apply beq_false_of_ne
    rintro rfl
    exact absurd h (by decide)
  have hletter : isLetter c = (decide (c.val ≥ 'A'.val ∧ c.val ≤ 'Z'.val) ||
      (decide (c.val ≥ 'a'.val) && decide (c.val ≤ 'z'.val)) || c == '_') := rfl
  simp [hletter, hunderscore, UInt32.le_iff_toNat_le]
  omega

/-- Marks are no blanks, no quotes, no digits and no letters. -/
theorem Kind.ofMark?_plain {c : Char} {kind : Kind} (h : ofMark? c = some kind) :
    isBlank c = false ∧ c ≠ '"' ∧ c.isDigit = false ∧ isLetter c = false := by
  unfold ofMark? at h
  split at h <;> cases h
  all_goals decide

theorem Kind.ofMark?_of_ofMarkEqual? {c : Char} {kind : Kind} (h : ofMarkEqual? c = some kind) :
    ∃ kind', ofMark? c = some kind' := by
  unfold ofMarkEqual? at h
  split at h <;> cases h
  all_goals exact ⟨_, rfl⟩

/-- Marks and words are no literals of texts or numbers. -/
theorem Kind.ne_literal {kind : Kind} {c : Char}
    (h : ofMark? c = some kind ∨ ofMarkEqual? c = some kind) : kind ≠ .string ∧ kind ≠ .number := by
  unfold ofMark? ofMarkEqual? at h
  grind

theorem Kind.ofWord_ne_literal (word : String) : ofWord word ≠ .string ∧ ofWord word ≠ .number := by
  have hkinds : ∀ p ∈ keywords, p.2 ≠ .string ∧ p.2 ≠ .number := by decide
  rcases ofWord_cases word with hidentifier | hkeyword
  · rw [hidentifier]
    exact ⟨nofun, nofun⟩
  · exact hkinds _ hkeyword

/-- What satisfies a test that blanks and quotes fail is neither. -/
theorem not_isBlank_of {p : Char → Bool} {c : Char}
    (hfails : [' ', '\r', '\t', '\n', '"'].any p = false) (h : p c) :
    isBlank c = false ∧ c ≠ '"' := by
  have hne : ∀ d ∈ [' ', '\r', '\t', '\n', '"'], c ≠ d := by
    rintro d hd rfl
    exact List.any_eq_false.mp hfails c hd h
  simpa [isBlank, and_assoc] using hne

theorem not_isBlank_of_isDigit {c : Char} (h : c.isDigit) : isBlank c = false ∧ c ≠ '"' :=
  not_isBlank_of rfl h

theorem not_isBlank_of_isLetter {c : Char} (h : isLetter c) : isBlank c = false ∧ c ≠ '"' :=
  not_isBlank_of rfl h

namespace Spells

variable {kind kind' : Kind} {c : Char} {tail : List Char}

theorem not_nil : ¬Spells kind [] := by
  intro h
  cases h

theorem not_blank (h : Spells kind (c :: tail)) : isBlank c = false := by
  cases h with
  | mark hkind => exact (Kind.ofMark?_plain (mark_iff.mp hkind)).1
  | operator hkind =>
      obtain ⟨kind', hmark⟩ := Kind.ofMark?_of_ofMarkEqual? (markEqual_iff.mp hkind)
      exact (Kind.ofMark?_plain hmark).1
  | number hd => exact (not_isBlank_of_isDigit hd).1
  | string => decide
  | word hc => exact (not_isBlank_of_isLetter hc).1

/-- What a quote begins is a string. -/
theorem of_quote (h : Spells kind ('"' :: tail)) :
    kind = .string ∧ ∃ body, '"' ∉ body ∧ tail = body ++ ['"'] := by
  generalize hc : '"' = c at h
  cases h with
  | mark hkind => exact absurd hc.symm (Kind.ofMark?_plain (mark_iff.mp hkind)).2.1
  | operator hkind =>
      obtain ⟨kind', hmark⟩ := Kind.ofMark?_of_ofMarkEqual? (markEqual_iff.mp hkind)
      exact absurd hc.symm (Kind.ofMark?_plain hmark).2.1
  | number hd => exact absurd hc.symm (not_isBlank_of_isDigit hd).2
  | string hbody => exact ⟨rfl, _, hbody, rfl⟩
  | word hletter => exact absurd hc.symm (not_isBlank_of_isLetter hletter).2

theorem of_digit (h : Spells kind (c :: tail)) (hc : c.isDigit) :
    kind = .number ∧ NumberTail tail := by
  cases h with
  | mark hkind => simp [(Kind.ofMark?_plain (mark_iff.mp hkind)).2.2.1] at hc
  | operator hkind =>
      obtain ⟨kind', hmark⟩ := Kind.ofMark?_of_ofMarkEqual? (markEqual_iff.mp hkind)
      simp [(Kind.ofMark?_plain hmark).2.2.1] at hc
  | number _ htail => exact ⟨rfl, htail⟩
  | string => exact absurd hc (by decide)
  | word hletter => simp [isLetter_of_isDigit hc] at hletter

theorem of_letter (h : Spells kind (c :: tail)) (hc : isLetter c) :
    kind = Kind.ofWord (String.ofList (c :: tail)) ∧ ∀ d ∈ tail, isWordChar d := by
  cases h with
  | mark hkind => simp [(Kind.ofMark?_plain (mark_iff.mp hkind)).2.2.2] at hc
  | operator hkind =>
      obtain ⟨kind', hmark⟩ := Kind.ofMark?_of_ofMarkEqual? (markEqual_iff.mp hkind)
      simp [(Kind.ofMark?_plain hmark).2.2.2] at hc
  | number hd => simp [isLetter_of_isDigit hd] at hc
  | string => exact absurd hc (by decide)
  | word _ hcs hkind => exact ⟨wordKind_iff.mp hkind, hcs⟩

/-- What is left are marks and the operators that an equals sign makes of them. -/
theorem of_other (h : Spells kind (c :: tail)) (hquote : c ≠ '"') (hdigit : ¬c.isDigit)
    (hletter : ¬isLetter c) : (tail = [] ∧ Kind.ofMark? c = some kind) ∨
      (tail = ['='] ∧ Kind.ofMarkEqual? c = some kind) := by
  cases h with
  | mark hkind => exact .inl ⟨rfl, mark_iff.mp hkind⟩
  | operator hkind => exact .inr ⟨rfl, markEqual_iff.mp hkind⟩
  | number hd => exact absurd hd hdigit
  | string => exact absurd rfl hquote
  | word hc => exact absurd hc hletter

/-- A token of text is not the one for the end, and a string is spelled with quotes. -/
theorem ne_eof {text : List Char} (h : Spells kind text) : kind ≠ .eof := by
  cases h with
  | mark hkind => exact (Kind.isPlain_of_ofMark? (mark_iff.mp hkind)).1
  | operator hkind => exact (Kind.isPlain_of_ofMarkEqual? (markEqual_iff.mp hkind)).1
  | number | string => exact nofun
  | word _ _ hword => exact wordKind_iff.mp hword ▸ Kind.ofWord_ne_eof _

theorem of_string {text : List Char} (h : Spells .string text) :
    ∃ body, '"' ∉ body ∧ text = '"' :: (body ++ ['"']) := by
  generalize hkind : Kind.string = kind at h
  cases h with
  | mark h => exact absurd hkind.symm (Kind.ne_literal (.inl (mark_iff.mp h))).1
  | operator h => exact absurd hkind.symm (Kind.ne_literal (.inr (markEqual_iff.mp h))).1
  | number => cases hkind
  | string hbody => exact ⟨_, hbody, rfl⟩
  | word _ _ hword =>
      exact absurd (hkind.trans (wordKind_iff.mp hword)).symm (Kind.ofWord_ne_literal _).1

theorem of_number {text : List Char} (h : Spells .number text) :
    ∃ d tail, text = d :: tail ∧ d.isDigit ∧ NumberTail tail := by
  generalize hkind : Kind.number = kind at h
  cases h with
  | mark h => exact absurd hkind.symm (Kind.ne_literal (.inl (mark_iff.mp h))).2
  | operator h => exact absurd hkind.symm (Kind.ne_literal (.inr (markEqual_iff.mp h))).2
  | number hd htail => exact ⟨_, _, rfl, hd, htail⟩
  | string => cases hkind
  | word _ _ hword =>
      exact absurd (hkind.trans (wordKind_iff.mp hword)).symm (Kind.ofWord_ne_literal _).2

/-- No text is spelled as tokens of two kinds. -/
theorem unique {text : List Char} (h : Spells kind text) (h' : Spells kind' text) :
    kind = kind' := by
  cases text with
  | nil => exact absurd h not_nil
  | cons c tail =>
      by_cases hquote : c = '"'
      · subst hquote
        rw [h.of_quote.1, h'.of_quote.1]
      by_cases hdigit : c.isDigit
      · rw [(h.of_digit hdigit).1, (h'.of_digit hdigit).1]
      by_cases hletter : isLetter c
      · rw [(h.of_letter hletter).1, (h'.of_letter hletter).1]
      rcases h.of_other hquote hdigit hletter with ⟨htail, hkind⟩ | ⟨htail, hkind⟩
      · rcases h'.of_other hquote hdigit hletter with ⟨-, hkind'⟩ | ⟨htail', -⟩
        · exact Option.some.inj (hkind.symm.trans hkind')
        · cases htail.symm.trans htail'
      · rcases h'.of_other hquote hdigit hletter with ⟨htail', -⟩ | ⟨-, hkind'⟩
        · cases htail.symm.trans htail'
        · exact Option.some.inj (hkind.symm.trans hkind')

end Spells

/-! ### Longest spellings -/

/-- What satisfies a test and may be cut off is no longer than what is cut off while it is satisfied. -/
theorem length_le_takeWhile {p : Char → Bool} {xs cs : List Char} (hxs : ∀ x ∈ xs, p x)
    (hbegins : xs <+: cs) : xs.length ≤ (cs.takeWhile p).length := by
  obtain ⟨rest, rfl⟩ := hbegins
  simp [List.takeWhile_append_of_pos hxs]

theorem ne_of_not_mem {c : Char} {xs : List Char} (h : c ∉ xs) : ∀ x ∈ xs, x != c :=
  fun _ hx => bne_iff_ne.mpr fun heq => h (heq ▸ hx)

theorem numberTail_spells (cs : List Char) : NumberTail (numberTail cs).1 := by
  have hwhole : ∀ d ∈ cs.takeWhile Char.isDigit, d.isDigit := fun d hd =>
    List.mem_takeWhile_imp hd
  unfold numberTail
  split
  case h_1 e rest hrest =>
    split
    case isTrue he =>
      exact .point hwhole he fun d hd => List.mem_takeWhile_imp hd
    case isFalse => exact .whole hwhole
  case h_2 => exact .whole hwhole

theorem numberTail_longest {tail cs : List Char} (h : NumberTail tail) (hbegins : tail <+: cs) :
    tail.length ≤ (numberTail cs).1.length := by
  cases h with
  | whole hds =>
      have hle := length_le_takeWhile hds hbegins
      unfold numberTail
      split
      · split
        · simp only [List.length_append]
          omega
        · exact hle
      · exact hle
  | @point ds es e hds he hes =>
      obtain ⟨rest, hrest⟩ := hbegins
      have hpoint : cs = ds ++ '.' :: (e :: (es ++ rest)) := by simp [← hrest]
      have hdrop : (ds ++ '.' :: (e :: (es ++ rest))).dropWhile Char.isDigit =
          '.' :: e :: (es ++ rest) := by
        rw [List.dropWhile_append_of_pos hds, List.dropWhile_cons_of_neg (by decide)]
      have hle := length_le_takeWhile hes (List.prefix_append es rest)
      have htake := length_le_takeWhile hds (List.prefix_append ds ('.' :: e :: (es ++ rest)))
      simp only [numberTail, hpoint, hdrop, he, if_true, List.length_append, List.length_cons]
      omega

theorem stringTail_closed {cs body rest : List Char} (h : stringTail cs = (true, body, rest)) :
    ∃ inner, '"' ∉ inner ∧ body = inner ++ ['"'] := by
  unfold stringTail at h
  split at h
  case h_1 => cases h
  case h_2 quote rest' hdrop =>
    cases h
    have hquote : quote = '"' := by
      have hhead := List.head?_dropWhile_not (· != '"') cs
      rw [hdrop] at hhead
      simpa using hhead
    subst hquote
    refine ⟨_, fun hmem => ?_, rfl⟩
    simpa using List.mem_takeWhile_imp hmem

theorem stringTail_open {cs body rest : List Char} (h : stringTail cs = (false, body, rest)) :
    '"' ∉ cs ∧ body = cs ∧ rest = [] := by
  unfold stringTail at h
  split at h
  case h_1 hdrop =>
    cases h
    refine ⟨fun hmem => ?_, rfl, rfl⟩
    simpa using List.dropWhile_eq_nil_iff.mp hdrop _ hmem
  case h_2 => cases h

/-! ### The first segment -/

namespace Cut

variable {c : Char} {cs : List Char}

/-- A spelling that may be cut off a text that begins with `c`, and is as long as any other. -/
theorem of_longest {kind : Kind} {tail rest : List Char} (htext : tail ++ rest = cs)
    (hspells : Spells kind (c :: tail)) (hcomment : ¬(c = '/' ∧ cs.head? = some '/'))
    (hlongest : ∀ kind' tail', Spells kind' (c :: tail') → tail' <+: cs →
      tail'.length ≤ tail.length) : Cut (.lexeme kind (c :: tail)) rest := by
  subst htext
  apply lexeme hspells
  · rintro ⟨behind, hbehind⟩
    injection hbehind with hc hcs
    rw [show tail ++ rest = '/' :: behind from hcs.symm] at hcomment
    exact hcomment ⟨hc.symm, rfl⟩
  · intro kind' text' hspells' hbegins
    cases text' with
    | nil => exact absurd hspells' Spells.not_nil
    | cons d tail' =>
        obtain ⟨rfl, htail⟩ := List.cons_prefix_cons.mp hbegins
        exact Nat.succ_le_succ (hlongest kind' tail' hspells' htail)

/-- What `mark` cuts off is the longer of the two spellings that there are. -/
theorem of_mark (hblank : isBlank c = false) (hquote : c ≠ '"') (hdigit : ¬c.isDigit)
    (hletter : ¬isLetter c) (hcomment : ¬(c = '/' ∧ cs.head? = some '/')) :
    Cut (mark c cs).1 (mark c cs).2 := by
  have hother : ∀ {kind' tail'}, Spells kind' (c :: tail') → _ :=
    fun h => Spells.of_other h hquote hdigit hletter
  by_cases hequals : ∃ kind rest, Kind.ofMarkEqual? c = some kind ∧ cs = '=' :: rest
  · obtain ⟨kind, rest, hkind, rfl⟩ := hequals
    have hmark : mark c ('=' :: rest) = (.lexeme kind [c, '='], rest) := by simp [mark, hkind]
    rw [hmark]
    apply of_longest (by rfl) (.operator (markEqual_iff.mpr hkind)) hcomment
    intro kind' tail' h _
    rcases hother h with ⟨rfl, -⟩ | ⟨rfl, -⟩ <;> simp
  · have hshort : ∀ {kind' tail'}, Spells kind' (c :: tail') → tail' <+: cs →
        tail' = [] ∧ Kind.ofMark? c = some kind' := by
      intro kind' tail' h hbegins
      rcases hother h with hsingle | ⟨rfl, hkind⟩
      · exact hsingle
      · obtain ⟨rest, hrest⟩ := hbegins
        exact absurd ⟨_, rest, hkind, hrest.symm⟩ hequals
    have hmark : mark c cs = ((Kind.ofMark? c).elim (.stray c) (.lexeme · [c]), cs) := by
      unfold mark
      split
      · exact absurd ⟨_, _, ‹_›, rfl⟩ hequals
      · cases Kind.ofMark? c <;> rfl
    rw [hmark]
    cases hkind : Kind.ofMark? c with
    | some kind =>
        apply of_longest (by rfl) (.mark (mark_iff.mpr hkind)) hcomment
        intro kind' tail' h hbegins
        simp [(hshort h hbegins).1]
    | none =>
        apply stray (by simp [hblank]) hquote
        intro kind text h hbegins
        cases text with
        | nil => exact Spells.not_nil h
        | cons d tail =>
            obtain ⟨rfl, htail⟩ := List.cons_prefix_cons.mp hbegins
            cases hkind.symm.trans (hshort h htail).2

/-- What `leading` cuts off may be cut off. -/
theorem of_leading (c : Char) (cs : List Char) : Cut (leading c cs).1 (leading c cs).2 := by
  unfold leading
  split
  case isTrue hblank => exact blank hblank
  case isFalse hblank =>
  split
  case isTrue hslashes =>
    simp only [Bool.and_eq_true, beq_iff_eq] at hslashes
    obtain ⟨rfl, hhead⟩ := hslashes
    obtain ⟨cs', rfl⟩ : ∃ cs', cs = '/' :: cs' := by
      cases cs with
      | nil => cases hhead
      | cons d cs' =>
          cases hhead
          exact ⟨cs', rfl⟩
    rw [List.takeWhile_cons_of_pos (by decide), List.dropWhile_cons_of_pos (by decide)]
    apply comment
    · intro hmem
      simpa using List.mem_takeWhile_imp hmem
    · intro d hd
      have hhead := List.head?_dropWhile_not (· != '\n') cs'
      rw [hd] at hhead
      simpa using hhead
  case isFalse hslashes =>
  have hcomment : ¬(c = '/' ∧ cs.head? = some '/') := by
    simpa only [Bool.and_eq_true, beq_iff_eq] using hslashes
  split
  case isTrue hquote =>
    rw [beq_iff_eq] at hquote
    subst hquote
    split
    case h_1 body rest htail =>
      obtain ⟨inner, hinner, rfl⟩ := stringTail_closed htail
      have happend := stringTail_append cs
      rw [htail] at happend
      apply of_longest happend (.string hinner) hcomment
      -- The first quote behind the opening one ends every string that may be cut off.
      intro kind' tail' h hbegins
      obtain ⟨-, inner', hinner', rfl⟩ := h.of_quote
      have hbegins' : inner' <+: cs := (List.prefix_append inner' ['"']).trans hbegins
      have hle := length_le_takeWhile (ne_of_not_mem hinner') hbegins'
      rw [← happend, List.append_assoc, List.takeWhile_append_of_pos (ne_of_not_mem hinner)] at hle
      simpa using hle
    case h_2 body rest htail =>
      obtain ⟨hbody, rfl, rfl⟩ := stringTail_open htail
      exact unclosed hbody
  case isFalse hquote =>
  rw [beq_iff_eq] at hquote
  split
  case isTrue hdigit =>
    apply of_longest (numberTail_append cs) (.number hdigit (numberTail_spells cs)) hcomment
    intro kind' tail' h hbegins
    exact numberTail_longest (h.of_digit hdigit).2 hbegins
  case isFalse hdigit =>
  split
  case isTrue hletter =>
    have hword : ∀ d ∈ cs.takeWhile isWordChar, isWordChar d := fun d hd =>
      List.mem_takeWhile_imp hd
    apply of_longest List.takeWhile_append_dropWhile
      (.word hletter hword (wordKind_iff.mpr rfl)) hcomment
    intro kind' tail' h hbegins
    exact length_le_takeWhile (h.of_letter hletter).2 hbegins
  case isFalse hletter =>
    exact of_mark (by simpa using hblank) hquote hdigit hletter hcomment

theorem not_nil {s : Segment} {rest : List Char} (h : Cut s rest) : s.text ≠ [] := by
  cases h with
  | lexeme hspells =>
      rintro rfl
      exact Spells.not_nil hspells
  | _ => exact List.cons_ne_nil _ _

/-- Nothing else may be cut off than what `leading` cuts off. -/
theorem leading_eq {s : Segment} {rest : List Char} (h : Cut s rest)
    (htext : s.text ++ rest = c :: cs) : leading c cs = (s, rest) := by
  have hleading := of_leading c cs
  have happend := leading_append c cs
  cases h with
  | blank hblank =>
      cases htext
      simp [leading, hblank]
  | @comment body rest hbody hend =>
      cases htext
      have hblank : isBlank '/' = false := by decide
      have hne := ne_of_not_mem hbody
      have htake : rest.takeWhile (· != '\n') = [] ∧ rest.dropWhile (· != '\n') = rest := by
        cases rest with
        | nil => exact ⟨rfl, rfl⟩
        | cons d rest =>
            obtain rfl := hend d rfl
            exact ⟨rfl, rfl⟩
      simp [leading, hblank, List.takeWhile_append_of_pos hne, List.dropWhile_append_of_pos hne, htake]
  | @lexeme kind text rest hspells hcomment hlongest =>
      change text ++ rest = c :: cs at htext
      rw [htext] at hcomment hlongest
      generalize leading c cs = cut at hleading happend
      obtain ⟨s', rest'⟩ := cut
      dsimp only at hleading happend
      have hbegins : text <+: c :: cs := ⟨rest, htext⟩
      cases hleading with
      | blank hblank =>
          obtain ⟨rfl, rfl⟩ := List.cons.inj happend
          cases text with
          | nil => exact absurd hspells Spells.not_nil
          | cons d tail =>
              obtain ⟨rfl, -⟩ := List.cons.inj htext
              simp [hspells.not_blank] at hblank
      | comment => exact absurd ⟨_, happend⟩ hcomment
      | @lexeme kind' text' _ hspells' _ hlongest' =>
          change text' ++ rest' = c :: cs at happend
          rw [happend] at hlongest'
          have hle := hlongest' kind text hspells hbegins
          have hge := hlongest kind' text' hspells' ⟨rest', happend⟩
          obtain ⟨rfl, rfl⟩ := List.append_inj (happend.trans htext.symm) (by omega)
          rw [hspells.unique hspells']
      | stray _ _ hnone =>
          obtain ⟨rfl, rfl⟩ := List.cons.inj happend
          exact absurd hbegins (hnone kind text hspells)
      | @unclosed body hbody =>
          obtain ⟨rfl, rfl⟩ := List.cons.inj happend
          cases text with
          | nil => exact absurd hspells Spells.not_nil
          | cons d tail =>
              obtain ⟨rfl, htail⟩ := List.cons.inj htext
              obtain ⟨-, inner, -, rfl⟩ := hspells.of_quote
              have hmem : '"' ∈ inner ++ ['"'] ++ rest := by simp
              rw [show inner ++ ['"'] ++ rest = body ++ [] from htail, List.append_nil] at hmem
              exact absurd hmem hbody
  | @stray d rest hblank hquote hnone =>
      obtain ⟨rfl, rfl⟩ : d = c ∧ rest = cs := List.cons.inj htext
      generalize leading d rest = cut at hleading happend
      obtain ⟨s', rest'⟩ := cut
      dsimp only at hleading happend
      cases hleading with
      | blank hblank' =>
          obtain ⟨rfl, -⟩ := List.cons.inj happend
          exact absurd hblank' hblank
      | comment =>
          obtain ⟨rfl, -⟩ := List.cons.inj happend
          exact absurd ⟨rest, rfl⟩ (hnone .slash ['/'] (.mark .slash))
      | @lexeme kind text _ hspells => exact absurd ⟨rest', happend⟩ (hnone kind text hspells)
      | stray =>
          obtain ⟨rfl, rfl⟩ := List.cons.inj happend
          rfl
      | unclosed =>
          obtain ⟨rfl, -⟩ := List.cons.inj happend
          exact absurd rfl hquote
  | @unclosed body hbody =>
      obtain ⟨rfl, rfl⟩ := List.cons.inj htext
      have hne := ne_of_not_mem hbody
      have hblank : isBlank '"' = false := by decide
      have hdrop : body.dropWhile (· != '"') = [] := List.dropWhile_eq_nil_iff.mpr hne
      simp [leading, hblank, stringTail, hdrop]

end Cut

/-! ### Partitions -/

theorem partition_segments (text : List Char) : Partition text (segments text) := by
  fun_induction segments text with
  | case1 => exact .nil
  | case2 c cs ih =>
      have hcons := Partition.cons (Cut.of_leading c cs) ih
      rwa [leading_append] at hcons

namespace Partition

variable {text : List Char} {segs before behind : List Segment} {s : Segment}

theorem eq_segments (h : Partition text segs) : segs = segments text := by
  induction h with
  | nil => rw [segments]
  | @cons s segs rest hs _ ih =>
      obtain ⟨c, cs, htext⟩ : ∃ c cs, s.text ++ rest = c :: cs :=
        List.exists_cons_of_ne_nil fun h => hs.not_nil (List.append_eq_nil_iff.mp h).1
      rw [htext, segments, hs.leading_eq htext, ih]

theorem text_eq (h : Partition text segs) : text = segs.flatMap Segment.text := by
  induction h with
  | nil => rfl
  | cons _ _ ih => rw [List.flatMap_cons, ← ih]

/-- What a segment stands in front of. -/
theorem cut (h : Partition text (before ++ s :: behind)) :
    Cut s (behind.flatMap Segment.text) := by
  induction before generalizing text with
  | nil =>
      cases h with
      | cons hs hrest => exact hrest.text_eq ▸ hs
  | cons t before ih =>
      cases h with
      | cons _ hrest => exact ih hrest

theorem spells {kind : Kind} {lexeme : List Char} (h : Partition text segs)
    (hmem : .lexeme kind lexeme ∈ segs) : Spells kind lexeme := by
  obtain ⟨before, behind, rfl⟩ := List.append_of_mem hmem
  cases h.cut with
  | lexeme hspells => exact hspells

/-- A string without its closing quote comes last. -/
theorem behind_unclosed {body : List Char} (h : Partition text (before ++ .unclosed body :: behind)) :
    behind = [] := by
  have hcut := h.cut
  generalize hrest : behind.flatMap Segment.text = rest at hcut
  cases hcut with
  | @unclosed inner =>
      cases behind with
      | nil => rfl
      | cons s behind =>
          have hs : Partition text ((before ++ [.unclosed ('"' :: inner)]) ++ s :: behind) := by
            rwa [List.append_assoc]
          exact absurd (List.append_eq_nil_iff.mp hrest).1 hs.cut.not_nil

end Partition

/-- A point with no digit behind it is no part of a number, and only ASCII letters are part of a word. -/
example : segments "7.é".toList =
    [.lexeme .number ['7'], .lexeme .dot ['.'], .stray 'é'] := by decide +kernel

end LoxLang
