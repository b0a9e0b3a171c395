import LoxLang.Proofs.Grammar.Soundness
import LoxLang.Proofs.Grammar.Completeness

/-!
The parser accepts its grammar and nothing else, and gives the tree of the derivation. So no token list
has two trees, although the grammar says for no place of a text which of its rules is to be taken.
-/

namespace LoxLang.Grammar

variable {α : Type} {ts : List Token} {stop : Token} {i j : Identity}

/-- The tokens of a text: the last one ends the input, and no other does. -/
structure EndsOnce (tokens : List Token) : Prop where
  shape : ∃ ts stop, tokens = ts ++ [stop] ∧ stop.kind = .eof ∧ ∀ t ∈ ts, t.kind ≠ .eof

theorem beforeEnd_append (hstop : stop.kind = .eof) (hts : ∀ t ∈ ts, t.kind ≠ .eof) :
    beforeEnd (ts ++ [stop]) = ts := by
  induction ts with
  | nil => simp [beforeEnd, hstop]
  | cons t ts ih =>
      have ht : t.kind ≠ .eof := hts t (List.mem_cons_self ..)
      have hrest := ih fun u hu => hts u (List.mem_cons_of_mem _ hu)
      simp only [beforeEnd] at hrest ⊢
      simp [ht, hrest]

theorem readAll_eq_ok_iff {read : Reader α} {tokens : List Token} {a : α} :
    readAll read tokens i = ⟨.ok a, j⟩ ↔
      ∃ d, read ⟨beforeEnd tokens, i, []⟩ = .ok a d ∧ d.errors = [] ∧ d.nextId = j := by
  rw [readAll]
  cases read ⟨beforeEnd tokens, i, []⟩ with
  | ok b d =>
      cases hd : d.errors with
      | nil =>
          simp only [hd, List.isEmpty_nil, if_true, Reading.mk.injEq, Except.ok.injEq,
            EStateM.Result.ok.injEq]
          constructor
          · rintro ⟨rfl, rfl⟩
            exact ⟨d, ⟨rfl, rfl⟩, hd, rfl⟩
          · rintro ⟨_, ⟨rfl, rfl⟩, -, rfl⟩
            exact ⟨rfl, rfl⟩
      | cons e es => simp [hd]
  | error e d => simp

/-- The tokens that the parser looks at are those before the first that ends an input. -/
theorem parseProgram_iff_derives {tokens : List Token} {ss : List Stmt} :
    parseProgram tokens i = ⟨.ok ss, j⟩ ↔
      Derives (.declarations ss) ⟨beforeEnd tokens, i⟩ ⟨[], j⟩ := by
  rw [parseProgram, readAll_eq_ok_iff]
  generalize beforeEnd tokens = ts
  constructor
  · rintro ⟨⟨ahead, nextId, errors⟩, hrun, hd, rfl⟩
    obtain ⟨-, rfl, hder⟩ := program_sound (rules_sound _).declaration _ hrun hd
    exact hder
  · intro hder
    have hrun := hder.complete.inProgram ts.length ts.length [] (Nat.le_refl _) (Nat.le_refl _) rfl
    exact ⟨_, hrun, rfl, rfl⟩

theorem parseExpression_iff_derives {tokens : List Token} {e : Expr} :
    parseExpression tokens i = ⟨.ok e, j⟩ ↔
      Derives (.expr .assignment e) ⟨beforeEnd tokens, i⟩ ⟨[], j⟩ := by
  rw [parseExpression, readAll_eq_ok_iff]
  generalize beforeEnd tokens = ts
  constructor
  · rintro ⟨⟨ahead, nextId, errors⟩, hrun, hd, rfl⟩
    obtain ⟨-, rfl, hder⟩ := wholeExpression_sound (rules_sound _).expression hrun hd
    exact hder
  · intro hder
    have hread : Extends .assignment e ⟨ts, i⟩ ⟨[], j⟩ := hder.complete
    have hrun := hread.reads_assignment (n := ts.length) (Nat.le_refl _) (weak_nil 0) []
    exact ⟨_, bind_of_ok hrun, rfl, rfl⟩

theorem parseProgram_eq_ok_iff (hstop : stop.kind = .eof) (hts : ∀ t ∈ ts, t.kind ≠ .eof)
    {ss : List Stmt} :
    parseProgram (ts ++ [stop]) i = ⟨.ok ss, j⟩ ↔ Derives (.declarations ss) ⟨ts, i⟩ ⟨[], j⟩ := by
  rw [parseProgram_iff_derives, beforeEnd_append hstop hts]

theorem parseExpression_eq_ok_iff (hstop : stop.kind = .eof) (hts : ∀ t ∈ ts, t.kind ≠ .eof)
    {e : Expr} :
    parseExpression (ts ++ [stop]) i = ⟨.ok e, j⟩ ↔
      Derives (.expr .assignment e) ⟨ts, i⟩ ⟨[], j⟩ := by
  rw [parseExpression_iff_derives, beforeEnd_append hstop hts]

theorem derives_program_iff (hstop : stop.kind = .eof) {ss : List Stmt} :
    Derives (.program ss) ⟨ts ++ [stop], i⟩ ⟨[], j⟩ ↔ Derives (.declarations ss) ⟨ts, i⟩ ⟨[], j⟩ := by
  constructor
  · generalize hs : (⟨ts ++ [stop], i⟩ : Input) = s
    intro h
    cases h with
    | program hss _ =>
        injection hs with htokens hi
        obtain ⟨rfl, -⟩ := List.append_inj' htokens rfl
        exact hi ▸ hss
  · exact fun hss => .program hss hstop

theorem derives_whole_iff (hstop : stop.kind = .eof) {e : Expr} :
    Derives (.whole e) ⟨ts ++ [stop], i⟩ ⟨[], j⟩ ↔
      Derives (.expr .assignment e) ⟨ts, i⟩ ⟨[], j⟩ := by
  constructor
  · generalize hs : (⟨ts ++ [stop], i⟩ : Input) = s
    intro h
    cases h with
    | whole he _ =>
        injection hs with htokens hi
        obtain ⟨rfl, -⟩ := List.append_inj' htokens rfl
        exact hi ▸ he
  · exact fun he => .whole he hstop

/-- Reading a token list as a program succeeds exactly if the list can be derived from the grammar's
`program`, and reading it as an expression exactly if it can be derived as an expression with nothing
behind it. The tree that is read is then the tree of the derivation, identities included. -/
theorem parse_iff_derives (tokens : List Token) (i : Identity) (h : EndsOnce tokens) :
    (∀ ss j, parseProgram tokens i = ⟨.ok ss, j⟩ ↔ Derives (.program ss) ⟨tokens, i⟩ ⟨[], j⟩) ∧
      ∀ e j, parseExpression tokens i = ⟨.ok e, j⟩ ↔ Derives (.whole e) ⟨tokens, i⟩ ⟨[], j⟩ := by
  obtain ⟨ts, stop, rfl, hstop, hts⟩ := h.shape
  constructor
  · intro ss j
    rw [derives_program_iff hstop]
    exact parseProgram_eq_ok_iff hstop hts
  · intro e j
    rw [derives_whole_iff hstop]
    exact parseExpression_eq_ok_iff hstop hts

/-- Assignments group to the right, and the reference on the left is numbered last. -/
theorem assignments_derived :
    EndsOnce [⟨.identifier, "a", 1⟩, ⟨.equal, "=", 1⟩, ⟨.identifier, "b", 1⟩, ⟨.equal, "=", 1⟩,
        ⟨.kwNil, "nil", 1⟩, ⟨.semicolon, ";", 1⟩, .eof 1] ∧
      Derives
        (.program [.expr (.assign ⟨3, ⟨.identifier, "a", 1⟩⟩
          (.assign ⟨2, ⟨.identifier, "b", 1⟩⟩ (.literal .nil)))])
        ⟨[⟨.identifier, "a", 1⟩, ⟨.equal, "=", 1⟩, ⟨.identifier, "b", 1⟩, ⟨.equal, "=", 1⟩,
          ⟨.kwNil, "nil", 1⟩, ⟨.semicolon, ";", 1⟩, .eof 1], 0⟩ ⟨[], 4⟩ := by
  have hends : EndsOnce [⟨.identifier, "a", 1⟩, ⟨.equal, "=", 1⟩, ⟨.identifier, "b", 1⟩,
      ⟨.equal, "=", 1⟩, ⟨.kwNil, "nil", 1⟩, ⟨.semicolon, ";", 1⟩, .eof 1] :=
    ⟨[⟨.identifier, "a", 1⟩, ⟨.equal, "=", 1⟩, ⟨.identifier, "b", 1⟩, ⟨.equal, "=", 1⟩,
      ⟨.kwNil, "nil", 1⟩, ⟨.semicolon, ";", 1⟩], .eof 1, rfl, rfl, by decide⟩
  exact ⟨hends, ((parse_iff_derives _ 0 hends).1 _ _).mp (by rfl)⟩

/-- A grammar that its parser decides is unambiguous. -/
theorem derives_unique {s : Input} {ss ss' : List Stmt} {j j' : Identity} (h : EndsOnce s.tokens)
    (hss : Derives (.program ss) s ⟨[], j⟩) (hss' : Derives (.program ss') s ⟨[], j'⟩) :
    ss = ss' ∧ j = j' := by
  obtain ⟨tokens, i⟩ := s
  obtain ⟨ts, stop, rfl, hstop, hts⟩ := h.shape
  rw [derives_program_iff hstop, ← parseProgram_eq_ok_iff hstop hts] at hss hss'
  cases hss.symm.trans hss'
  exact ⟨rfl, rfl⟩

end LoxLang.Grammar
