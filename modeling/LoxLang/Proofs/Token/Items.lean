import LoxLang.Proofs.Grammar.Acceptance
import LoxLang.Proofs.Grammar.Trees

/-!
The tokens of scanned text. There are no more of them than characters, the last one alone ends the
input, and words have the kinds that their spellings fix.
-/

namespace LoxLang

open Grammar Scope

/-! ### Words -/

/-- A word is an identifier or has the kind of a keyword that it spells. -/
theorem Kind.ofWord_cases (word : String) :
    Kind.ofWord word = .identifier ∨ (word, Kind.ofWord word) ∈ Kind.keywords := by
  unfold Kind.ofWord
  cases hfound : Kind.keywords.lookup word with
  | none => exact .inl rfl
  | some kind =>
      obtain ⟨before, behind, heq, -⟩ := List.lookup_eq_some_iff.mp hfound
      refine .inr ?_
      rw [heq]
      exact List.mem_append_right _ (List.mem_cons_self ..)

theorem Kind.ofWord_eq_kwThis {word : String} (h : Kind.ofWord word = .kwThis) : word = "this" := by
  have hthis : ∀ p ∈ Kind.keywords, p.2 = .kwThis → p.1 = "this" := by decide
  rcases Kind.ofWord_cases word with hidentifier | hkeyword
  · cases h.symm.trans hidentifier
  · exact hthis _ hkeyword h

theorem Kind.ofWord_eq_kwSuper {word : String} (h : Kind.ofWord word = .kwSuper) :
    word = "super" := by
  have hsuper : ∀ p ∈ Kind.keywords, p.2 = .kwSuper → p.1 = "super" := by decide
  rcases Kind.ofWord_cases word with hidentifier | hkeyword
  · cases h.symm.trans hidentifier
  · exact hsuper _ hkeyword h

theorem Kind.ofWord_ne_eof (word : String) : Kind.ofWord word ≠ .eof := by
  have hkinds : ∀ p ∈ Kind.keywords, p.2 ≠ .eof := by decide
  rcases Kind.ofWord_cases word with hidentifier | hkeyword
  · exact hidentifier ▸ nofun
  · exact hkinds _ hkeyword

/-- Identifiers are not named like the scopes of classes. -/
theorem Kind.not_reserved {word : String} (h : Kind.ofWord word = .identifier) : ¬Reserved word := by
  rintro (rfl | rfl)
  · exact absurd h (by decide)
  · exact absurd h (by decide)

/-! ### Segments -/

/-- The kinds of lexemes that are not words. -/
def Kind.IsPlain (kind : Kind) : Prop :=
  kind ≠ .eof ∧ kind ≠ .identifier ∧ kind ≠ .kwThis ∧ kind ≠ .kwSuper

/-- A lexeme that is a word has the kind of the word. -/
def Segment.Proper : Segment → Prop
  | .lexeme kind text => kind.IsPlain ∨ kind = Kind.ofWord (String.ofList text)
  | _ => True

theorem Kind.isPlain_of_ofMark? {c : Char} {kind : Kind} (h : Kind.ofMark? c = some kind) :
    kind.IsPlain := by
  unfold Kind.ofMark? at h
  unfold IsPlain
  grind

theorem Kind.isPlain_of_ofMarkEqual? {c : Char} {kind : Kind} (h : Kind.ofMarkEqual? c = some kind) :
    kind.IsPlain := by
  unfold Kind.ofMarkEqual? at h
  unfold IsPlain
  grind

theorem Segment.proper_mark (c : Char) (cs : List Char) : (mark c cs).1.Proper := by
  unfold mark
  split
  case h_1 h => exact .inl (Kind.isPlain_of_ofMarkEqual? h)
  case h_2 =>
    split
    case h_1 h => exact .inl (Kind.isPlain_of_ofMark? h)
    case h_2 => trivial

theorem Segment.proper_leading (c : Char) (cs : List Char) : (leading c cs).1.Proper := by
  unfold leading
  split
  · trivial
  split
  · trivial
  split
  · split
    · exact .inl ⟨nofun, nofun, nofun, nofun⟩
    · trivial
  split
  · exact .inl ⟨nofun, nofun, nofun, nofun⟩
  split
  · exact .inr rfl
  · exact proper_mark c cs

theorem Segment.proper_of_mem {text : List Char} : ∀ s ∈ segments text, s.Proper := by
  fun_induction segments text with
  | case1 => simp
  | case2 c cs ih =>
      intro s hs
      rcases List.mem_cons.mp hs with rfl | hs
      · exact proper_leading c cs
      · exact ih s hs

/-! ### Items -/

/-- The tokens of segments that begin on a line, without the one for the end. -/
def tokensFrom (line : Nat) : List Segment → List Token
  | [] => []
  | .lexeme kind text :: rest =>
    ⟨kind, String.ofList text, line + newlines text⟩ :: tokensFrom (line + newlines text) rest
  | s :: rest => tokensFrom (line + newlines s.text) rest

/-- The line on which segments end. -/
def lastLine (line : Nat) (segs : List Segment) : Nat :=
  line + newlines (segs.flatMap Segment.text)

theorem tokensOf_itemsFrom (line : Nat) (segs : List Segment) :
    tokensOf (itemsFrom line segs) = tokensFrom line segs ++ [Token.eof (lastLine line segs)] := by
  induction segs generalizing line with
  | nil => rfl
  | cons s rest ih =>
      have hline : lastLine line (s :: rest) = lastLine (line + newlines s.text) rest := by
        simp only [lastLine, newlines, List.flatMap_cons, List.count_append, Nat.add_assoc]
      have hfirst : tokensOf (itemsFrom line (s :: rest)) =
          tokensOf (s.item? (line + newlines s.text)).toList ++
            tokensOf (itemsFrom (line + newlines s.text) rest) := List.filterMap_append
      rw [hfirst, ih, hline]
      cases s <;> rfl

theorem mem_tokensFrom {line : Nat} {segs : List Segment} {t : Token}
    (ht : t ∈ tokensFrom line segs) :
    ∃ text, .lexeme t.kind text ∈ segs ∧ t.lexeme = String.ofList text := by
  fun_induction tokensFrom line segs with
  | case1 => cases ht
  | case2 line kind text rest ih =>
      rcases List.mem_cons.mp ht with rfl | ht
      · exact ⟨text, List.mem_cons_self .., rfl⟩
      · obtain ⟨text', hmem, heq⟩ := ih ht
        exact ⟨text', List.mem_cons_of_mem _ hmem, heq⟩
  | case3 line s rest hs ih =>
      obtain ⟨text', hmem, heq⟩ := ih ht
      exact ⟨text', List.mem_cons_of_mem _ hmem, heq⟩

theorem length_tokensFrom_le (line : Nat) (segs : List Segment) :
    (tokensFrom line segs).length ≤ segs.length := by
  fun_induction tokensFrom line segs with
  | case1 => exact Nat.le_refl _
  | case2 line kind text rest ih => exact Nat.succ_le_succ ih
  | case3 line s rest hs ih => exact Nat.le_succ_of_le ih

/-- What scanning a text gives: its tokens, and the one for the end behind them. -/
structure Scanned (text : String) (ts : List Token) (stop : Token) : Prop where
  tokens : tokensOf (scan text) = ts ++ [stop]
  stop : stop.kind = .eof
  kinds : ∀ t ∈ ts, t.kind ≠ .eof
  genuine : ∀ t ∈ ts, Genuine t
  length : ts.length ≤ text.toList.length

/-- The tokens of a text, without the one for the end. -/
def textTokens (text : String) : List Token :=
  tokensFrom 1 (segments text.toList)

theorem scanned_textTokens (text : String) :
    Scanned text (textTokens text) (.eof (lastLine 1 (segments text.toList))) := by
  have hword : ∀ t ∈ textTokens text, t.kind.IsPlain ∨ t.kind = Kind.ofWord t.lexeme := by
    intro t ht
    obtain ⟨word, hmem, heq⟩ := mem_tokensFrom ht
    have hproper := Segment.proper_of_mem _ hmem
    rw [heq]
    exact hproper
  refine ⟨tokensOf_itemsFrom 1 (segments text.toList), rfl, ?_, ?_, ?_⟩
  · intro t ht
    rcases hword t ht with hplain | hkind
    · exact hplain.1
    · exact hkind ▸ Kind.ofWord_ne_eof _
  · intro t ht
    rcases hword t ht with ⟨-, hidentifier, hthis, hsuper⟩ | hkind
    · exact ⟨fun h => absurd h hidentifier, fun h => absurd h hthis, fun h => absurd h hsuper⟩
    · exact ⟨fun h => Kind.not_reserved (hkind.symm.trans h),
        fun h => Kind.ofWord_eq_kwThis (hkind.symm.trans h),
        fun h => Kind.ofWord_eq_kwSuper (hkind.symm.trans h)⟩
  · exact Nat.le_trans (length_tokensFrom_le 1 _) (length_segments_le _)

end LoxLang
