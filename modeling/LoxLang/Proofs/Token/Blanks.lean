import LoxLang.Proofs.Token.Partition

/-!
Blanks between tokens. A blank ends every token but a string, so that a token in front of one is cut off
as it is spelled, and a character that begins no token may as well be a blank: with blanks in place of
all of these, a text is cut at the same places as before, and scanning it gives the same items without
the errors about them. A string that is not closed stays as it is, with its error.
-/

namespace LoxLang

open Segment

/-! ### Spellings without blanks -/

theorem not_isBlank_of_isWordChar {c : Char} (h : isWordChar c) : isBlank c = false :=
  (not_isBlank_of rfl h).1

theorem NumberTail.not_blank {tail : List Char} (h : NumberTail tail) :
    ∀ c ∈ tail, isBlank c = false := by
  have hdigits : ∀ {ds : List Char}, (∀ d ∈ ds, d.isDigit) → ∀ d ∈ ds, isBlank d = false :=
    fun hds d hd => (not_isBlank_of_isDigit (hds d hd)).1
  intro c hc
  cases h with
  | whole hds => exact hdigits hds c hc
  | point hds he hes =>
      simp only [List.mem_append, List.mem_cons] at hc
      rcases hc with hc | rfl | rfl | hc
      · exact hdigits hds c hc
      · decide
      · exact (not_isBlank_of_isDigit he).1
      · exact hdigits hes c hc

namespace Spells

variable {kind kind' : Kind} {text text' : List Char}

/-- Blanks are part of strings only. -/
theorem free_of_blanks (h : Spells kind text) (hstring : kind ≠ .string) :
    ∀ c ∈ text, isBlank c = false := by
  intro c hc
  cases h with
  | mark hkind =>
      rw [List.mem_singleton.mp hc]
      exact (Kind.ofMark?_plain (mark_iff.mp hkind)).1
  | operator hkind =>
      obtain ⟨kind', hmark⟩ := Kind.ofMark?_of_ofMarkEqual? (markEqual_iff.mp hkind)
      simp only [List.mem_cons, List.not_mem_nil, or_false] at hc
      rcases hc with rfl | rfl
      · exact (Kind.ofMark?_plain hmark).1
      · decide
  | number hd htail =>
      rcases List.mem_cons.mp hc with rfl | hc
      · exact (not_isBlank_of_isDigit hd).1
      · exact htail.not_blank c hc
  | string => exact absurd rfl hstring
  | word hletter hcs =>
      rcases List.mem_cons.mp hc with rfl | hc
      · exact (not_isBlank_of_isLetter hletter).1
      · exact not_isBlank_of_isWordChar (hcs c hc)

/-- What is longer than a token that it begins with is no string, since a string ends at the first
quote that it can end at. -/
theorem not_string_of_longer (h : Spells kind text) (h' : Spells kind' text')
    (hbegins : text <+: text') (hlonger : text.length < text'.length) : kind' ≠ .string := by
  rintro rfl
  obtain ⟨body', hbody', rfl⟩ := h'.of_string
  cases text with
  | nil => exact not_nil h
  | cons c tail =>
      obtain ⟨rfl, htail⟩ := List.cons_prefix_cons.mp hbegins
      obtain ⟨-, body, -, rfl⟩ := h.of_quote
      rcases List.prefix_concat_iff.mp htail with heq | hinner
      · simp [heq] at hlonger
      · exact hbody' (hinner.subset (by simp))

end Spells

/-! ### Cutting in front of a blank -/

/-- In front of a blank, and at the end of a text, every spelling of a token may be cut off. -/
theorem Cut.before_blank {kind : Kind} {text rest : List Char} (h : Spells kind text)
    (hrest : ∀ c ∈ rest.head?, isBlank c) : Cut (.lexeme kind text) rest := by
  apply Cut.lexeme h
  · rintro ⟨behind, hslashes⟩
    cases text with
    | nil => exact Spells.not_nil h
    | cons c tail =>
        obtain ⟨rfl, htail⟩ := List.cons.inj hslashes
        rcases h.of_other (by decide) (by decide) (by decide) with ⟨rfl, -⟩ | ⟨-, hkind⟩
        · have hblank := hrest '/' (by rw [← show '/' :: behind = rest from htail]; rfl)
          exact absurd hblank (by decide)
        · cases hkind
  · intro kind' text' h' hbegins
    by_contra hlonger
    rw [Nat.not_le] at hlonger
    have hshorter : text <+: text' :=
      List.prefix_of_prefix_length_le (List.prefix_append text rest) hbegins (Nat.le_of_lt hlonger)
    obtain ⟨more, rfl⟩ := hshorter
    rw [List.prefix_append_right_inj] at hbegins
    cases more with
    | nil => simp at hlonger
    | cons c more =>
        obtain ⟨behind, rfl⟩ := hbegins
        have hstring := h.not_string_of_longer h' (List.prefix_append _ _) hlonger
        have hfree := h'.free_of_blanks hstring c (by simp)
        simp [hrest c rfl] at hfree

/-- What spells a token is one, if there is nothing behind it. -/
theorem segments_of_spells {kind : Kind} {cs : List Char} (h : Spells kind cs) :
    segments cs = [.lexeme kind cs] := by
  have hcut : Cut (.lexeme kind cs) [] := Cut.before_blank h nofun
  have hsegments := (Partition.cons hcut .nil).eq_segments
  rw [Segment.text, List.append_nil] at hsegments
  exact hsegments.symm

/-! ### Blanks put in -/

/-- Texts that differ only where one has a blank instead of a character that is none. -/
def Blanked : List Char → List Char → Prop :=
  List.Forall₂ fun c d => d = c ∨ d = ' ' ∧ isBlank c = false

namespace Blanked

variable {cs ds rest rest' : List Char}

theorem refl (cs : List Char) : Blanked cs cs :=
  List.forall₂_same.mpr fun _ _ => .inl rfl

theorem append (h : Blanked cs ds) (hrest : Blanked rest rest') :
    Blanked (cs ++ rest) (ds ++ rest') :=
  List.rel_append h hrest

/-- What begins a text and has no blanks in it was there before blanks were put in. -/
theorem begins (h : Blanked cs ds) {xs : List Char} (hbegins : xs <+: ds)
    (hfree : ∀ x ∈ xs, isBlank x = false) : xs <+: cs := by
  induction xs generalizing cs ds with
  | nil => exact List.nil_prefix
  | cons x xs ih =>
      cases h with
      | nil => simp at hbegins
      | cons hhead htail =>
          obtain ⟨rfl, hbehind⟩ := List.cons_prefix_cons.mp hbegins
          rcases hhead with rfl | ⟨rfl, -⟩
          · have hxs := ih htail hbehind fun y hy => hfree y (List.mem_cons_of_mem _ hy)
            exact List.cons_prefix_cons.mpr ⟨rfl, hxs⟩
          · simp [isBlank] at hfree

end Blanked

/-- A segment with a blank in place of a character that begins no token. -/
def Segment.mended : Segment → Segment
  | stray _ => blank ' '
  | s => s

/-- A text with a blank in place of each character that begins no token. -/
def mended (source : String) : String :=
  String.ofList ((segments source.toList).flatMap fun s => s.mended.text)

theorem Cut.blanked {s : Segment} {rest : List Char} (h : Cut s rest) :
    Blanked s.text s.mended.text := by
  cases h with
  | stray hblank =>
      have hplain := (Bool.not_eq_true _).mp hblank
      exact .cons (.inr ⟨rfl, hplain⟩) .nil
  | _ => exact .refl _

theorem Cut.newlines_mended {s : Segment} {rest : List Char} (h : Cut s rest) :
    newlines s.mended.text = newlines s.text := by
  cases h with
  | @stray c _ hblank =>
      have hbreak : c ≠ '\n' := by
        rintro rfl
        exact hblank rfl
      have hblank : ' ' ≠ '\n' := by decide
      simp only [Segment.mended, Segment.text, newlines, List.count_singleton, beq_iff_eq]
      rw [if_neg hblank, if_neg hbreak]
  | _ => rfl

/-- A segment may be cut off just as well when blanks have been put into the text behind it. -/
theorem Cut.mended {s : Segment} {rest rest' : List Char} (h : Cut s rest)
    (hrest : Blanked rest rest') : Cut s.mended rest' := by
  cases h with
  | blank hblank => exact .blank hblank
  | comment hbody hend =>
      apply Cut.comment hbody
      intro d hd
      cases hrest with
      | nil => cases hd
      | cons hhead =>
          obtain rfl : _ = d := Option.some.inj hd
          obtain rfl := hend _ rfl
          rcases hhead with rfl | ⟨-, hbreak⟩
          · rfl
          · cases hbreak
  | @lexeme kind text _ hspells hcomment hlongest =>
      have htext : Blanked (text ++ rest) (text ++ rest') := (Blanked.refl text).append hrest
      apply Cut.lexeme hspells
      · intro hslashes
        exact hcomment (htext.begins hslashes (by simp [isBlank]))
      · intro kind' text' hspells' hbegins
        by_contra hlonger
        rw [Nat.not_le] at hlonger
        have hshorter : text <+: text' :=
          List.prefix_of_prefix_length_le (List.prefix_append text rest') hbegins
            (Nat.le_of_lt hlonger)
        have hstring := hspells.not_string_of_longer hspells' hshorter hlonger
        have hbefore := htext.begins hbegins (hspells'.free_of_blanks hstring)
        exact absurd (hlongest kind' text' hspells' hbefore) (Nat.not_le_of_gt hlonger)
  | stray => exact .blank rfl
  | unclosed hbody =>
      cases hrest
      exact .unclosed hbody

namespace Partition

variable {text : List Char} {segs : List Segment}

theorem blanked (h : Partition text segs) :
    Blanked text ((segs.map Segment.mended).flatMap Segment.text) := by
  induction h with
  | nil => exact .nil
  | cons hs _ ih =>
      rw [List.map_cons, List.flatMap_cons]
      exact hs.blanked.append ih

/-- A mended text is cut at the same places. -/
theorem mended (h : Partition text segs) :
    Partition ((segs.map Segment.mended).flatMap Segment.text) (segs.map Segment.mended) := by
  induction h with
  | nil => exact .nil
  | cons hs hrest ih =>
      rw [List.map_cons, List.flatMap_cons]
      exact .cons (hs.mended hrest.blanked) ih

end Partition

/-! ### Items -/

/-- An error about a character that begins no token. -/
def Item.isStray : Item → Bool
  | .error ⟨_, .unexpectedCharacter _⟩ => true
  | _ => false

theorem item?_mended (line : Nat) (s : Segment) :
    (s.mended.item? line).toList = (s.item? line).toList.filter (!·.isStray) := by
  cases s <;> rfl

theorem Partition.itemsFrom_mended {text : List Char} {segs : List Segment} (h : Partition text segs)
    (line : Nat) :
    itemsFrom line (segs.map Segment.mended) = (itemsFrom line segs).filter (!·.isStray) := by
  induction h generalizing line with
  | nil => rfl
  | cons hs _ ih =>
      rw [List.map_cons, itemsFrom, itemsFrom, hs.newlines_mended, List.filter_append, ih,
        item?_mended]

theorem tokensOf_filter (items : List Item) :
    tokensOf (items.filter (!·.isStray)) = tokensOf items := by
  rw [tokensOf, tokensOf, List.filterMap_filter]
  congr 1
  funext item
  rcases item with t | ⟨line, c | _⟩ <;> rfl

theorem lexicalErrorsOf_filter (items : List Item) :
    lexicalErrorsOf (items.filter (!·.isStray)) =
      (lexicalErrorsOf items).filter (·.cause = .unterminatedString) := by
  rw [lexicalErrorsOf, lexicalErrorsOf, List.filterMap_filter, List.filter_filterMap]
  congr 1
  funext item
  rcases item with t | ⟨line, c | _⟩ <;> rfl

/-- Scanning a text with blanks in place of the characters that begin no token gives the items of the
text without the errors about these characters: all tokens, on their lines and in their order, and of
the errors those about a string that is not closed. -/
theorem scan_mended (source : String) :
    scan (mended source) = (scan source).filter (!·.isStray) ∧
      tokensOf (scan (mended source)) = tokensOf (scan source) ∧
      lexicalErrorsOf (scan (mended source)) =
        (lexicalErrorsOf (scan source)).filter (·.cause = .unterminatedString) := by
  have hpartition := partition_segments source.toList
  have htext : (mended source).toList =
      ((segments source.toList).map Segment.mended).flatMap Segment.text := by
    simp [mended, List.flatMap_map]
  have hscan : scan (mended source) = (scan source).filter (!·.isStray) := by
    rw [scan, htext, ← hpartition.mended.eq_segments, hpartition.itemsFrom_mended, scan]
  rw [hscan]
  exact ⟨rfl, tokensOf_filter _, lexicalErrorsOf_filter _⟩

example : mended "a@b \"c#" = "a b \"c#" := by decide +kernel

end LoxLang
