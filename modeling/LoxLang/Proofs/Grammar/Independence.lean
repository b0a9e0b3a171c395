import Mathlib.Data.List.Forall2
import LoxLang.Source
import LoxLang.Proofs.Grammar.Flat
import LoxLang.Proofs.Grammar.Relabel
import LoxLang.Proofs.Grammar.Safety

/-!
Statements are read independently of each other. A program that is a sequence of flat statements has the
errors of each statement, in order, and no others; without errors, its tree is made up of the trees of
the statements. So no error hides another one or leads to one that is not there.
-/

namespace LoxLang.Grammar

open Indexed (Place)

variable {c d : Cursor} {before es : List SyntaxError} {ts us : List Token} {ss ss' : List Stmt}
  {i j : Identity} {n m : Nat}

/-! ### Bounds that are large enough -/

theorem Indexed.Place.At.unique {p : Place} (h : p.At c) (h' : p.At d) : c = d := by
  obtain ⟨stop, -, hdrop⟩ := h.ahead
  obtain ⟨stop', -, hdrop'⟩ := h'.ahead
  obtain ⟨hahead, -⟩ := List.append_inj' (hdrop.symm.trans hdrop') rfl
  obtain ⟨ahead, id, errors⟩ := c
  obtain ⟨ahead', id', errors'⟩ := d
  obtain rfl : ahead = ahead' := hahead
  obtain rfl : id = id' := h.nextId.symm.trans h'.nextId
  obtain rfl : errors = errors' := h.errors.symm.trans h'.errors
  rfl

/-- A place for a cursor. -/
def Cursor.place (c : Cursor) : Place :=
  ⟨c.ahead ++ [.eof 0], 0, c.nextId, c.errors, []⟩

theorem Cursor.at_place (h : ∀ t ∈ c.ahead, t.kind ≠ .eof) : c.place.At c :=
  ⟨⟨.eof 0, rfl, rfl⟩, h, rfl, rfl⟩

/-- A declaration is read alike under all bounds that are large enough. -/
theorem declaration_settled (h : ∀ t ∈ c.ahead, t.kind ≠ .eof) (hne : c.ahead ≠ []) :
    ∃ o d, (∀ n, c.ahead.length < n → (rules n).declaration c = .ok o d) ∧
      d.ahead.length < c.ahead.length ∧ ∀ t ∈ d.ahead, t.kind ≠ .eof := by
  have hrun (n : Nat) (hn : c.ahead.length < n) :=
    (Indexed.rules_inStep (Nat.le_refl (c.ahead.length + 1)) hn).declaration _ c (Cursor.at_place h)
      (List.length_pos_iff.mpr hne) (Nat.lt_succ_self _)
  have hfirst := hrun _ (Nat.lt_succ_self _)
  obtain ⟨o, d, hlist⟩ : ∃ o d, (rules (c.ahead.length + 1)).declaration c = .ok o d :=
    Indexed.recovering_ok _ c
  rw [hlist] at hfirst
  generalize hplace : (Indexed.rules (c.ahead.length + 1)).declaration c.place = r at hfirst
  cases hfirst with
  | @ok _ q _ hat hmoves hfurther =>
      refine ⟨o, d, fun n hn => ?_, ?_, hat.genuine⟩
      · have hrun := hrun n hn
        rw [hplace] at hrun
        generalize (rules n).declaration c = s at hrun
        cases hrun with
        | ok hat' => rw [hat.unique hat']
      · have hlength := hat.length
        rw [hmoves.tokens] at hlength
        simp only [Cursor.place, List.length_append, List.length_singleton] at hlength hfurther
        omega

/-- A program is read so under all bounds that are large enough. -/
def Reads (c : Cursor) (ss : List Stmt) (d : Cursor) : Prop :=
  ∀ n m, c.ahead.length < n → c.ahead.length ≤ m → program (rules n).declaration m c = .ok ss d

theorem exists_reads (h : ∀ t ∈ c.ahead, t.kind ≠ .eof) : ∃ ss d, Reads c ss d ∧ d.ahead = [] := by
  have hrun (n m : Nat) (hn : c.ahead.length < n) (hm : c.ahead.length ≤ m) :=
    Indexed.program_eq (Indexed.rules_inStep (Nat.le_refl (c.ahead.length + 1)) hn).declaration
      (by obtain ⟨n, rfl⟩ : ∃ n', n = n' + 1 := ⟨n - 1, by omega⟩; exact Indexed.recovering_ok _)
      (Cursor.at_place h) (Nat.lt_succ_self _) (Nat.lt_succ_self _) hm
  obtain ⟨ss, q, d, hplace, -, hat, -, hend⟩ := hrun _ _ (Nat.lt_succ_self _) (Nat.le_refl _)
  refine ⟨ss, d, fun n m hn hm => ?_, hend⟩
  obtain ⟨ss', q', d', hplace', hlist, hat', -⟩ := hrun n m hn hm
  cases hplace.symm.trans hplace'
  rw [hlist, hat.unique hat']

theorem Reads.unique {d' : Cursor} (h : Reads c ss d) (h' : Reads c ss' d') : ss = ss' ∧ d = d' := by
  have hrun := h _ _ (Nat.lt_succ_self _) (Nat.le_refl _)
  rw [h' _ _ (Nat.lt_succ_self _) (Nat.le_refl _)] at hrun
  cases hrun
  exact ⟨rfl, rfl⟩

theorem reads_nil : Reads ⟨[], i, es⟩ [] ⟨[], i, es⟩ := by
  intro n m _ _
  cases m <;> rfl

theorem reads_step {o : Option Stmt} {c' : Cursor} (hne : c.ahead ≠ [])
    (hfirst : ∀ n, c.ahead.length < n → (rules n).declaration c = .ok o c')
    (hlength : c'.ahead.length < c.ahead.length) (h : Reads c' ss d) :
    Reads c (o.toList ++ ss) d := by
  intro n m hn hm
  obtain ⟨m, rfl⟩ : ∃ m', m = m' + 1 := ⟨m - 1, by omega⟩
  have hend : atEnd c = .ok false c := by
    rw [atEnd_eq, List.isEmpty_eq_false_iff.mpr hne]
  rw [program, bind_of_ok hend]
  exact (bind_of_ok (hfirst n hn)).trans (bind_of_ok (h n m (by omega) (by omega)))

/-! ### One statement before others -/

/-- A flat list before other tokens is read as on its own, and then the others are. -/
theorem reads_append (before : List SyntaxError) (hc : Flat c.ahead ∨ c.ahead = [])
    (hus : ¬Begins .kwElse us) (hgenuine : ∀ t ∈ c.ahead, t.kind ≠ .eof) (hlocated : Located c.errors)
    (hread : Reads c ss d) :
    Located d.errors ∧ ∀ ss' d', Reads ⟨us, d.nextId, before ++ d.errors⟩ ss' d' →
      Reads (c.framed before us) (ss ++ ss') d' := by
  induction hlength : c.ahead.length using Nat.strongRecOn generalizing c ss with
  | ind k ih =>
    rcases hc with hflat | hnil
    · have hne : c.ahead ≠ [] := fun hnil => not_flat_nil (hnil ▸ hflat)
      obtain ⟨o, c', hfirst, hless, hgenuine'⟩ := declaration_settled hgenuine hne
      obtain ⟨ss₁, d₁, hread₁, -⟩ := exists_reads hgenuine'
      obtain ⟨rfl, rfl⟩ := hread.unique (reads_step hne hfirst hless hread₁)
      have hframed (n : Nat) (hn : c.ahead.length < n) :
          (rules n).declaration (c.framed before us) = .ok o (c'.framed before us) ∧
            (Flat c'.ahead ∨ c'.ahead = []) ∧ Located c'.errors := by
        obtain ⟨n, rfl⟩ : ∃ n', n = n' + 1 := ⟨n - 1, by omega⟩
        have hframes : Frames before us Flat (fun ts => Flat ts ∨ ts = []) (rules (n + 1)).declaration :=
          frames_declaration hus n
        have hrun := hframes c hflat hlocated
        rw [hfirst _ hn] at hrun
        generalize (rules (n + 1)).declaration (c.framed before us) = r at hrun ⊢
        cases hrun with
        | ok hrest hlocated' => exact ⟨rfl, hrest, hlocated'⟩
      obtain ⟨-, hrest, hlocated'⟩ := hframed _ (Nat.lt_succ_self _)
      obtain ⟨hdone, happend⟩ := ih _ (hlength ▸ hless) hrest hgenuine' hlocated' hread₁ rfl
      refine ⟨hdone, fun ss' d' hread' => ?_⟩
      rw [List.append_assoc]
      refine reads_step (by simp [Cursor.framed, hne]) (fun n hn => (hframed n ?_).1) ?_
        (happend ss' d' hread')
      · simp only [Cursor.framed, List.length_append] at hn
        omega
      · simp only [Cursor.framed, List.length_append]
        omega
    · obtain ⟨ahead, id, errors⟩ := c
      obtain rfl : ahead = [] := hnil
      obtain ⟨rfl, rfl⟩ := hread.unique reads_nil
      exact ⟨hlocated, fun ss' d' hread' => hread'⟩

/-! ### Many statements -/

theorem Flat.not_begins_else (h : Flat ts) : ¬Begins .kwElse ts := by
  obtain ⟨t, rest, rfl⟩ := h.exists_cons
  rw [begins_cons]
  intro ht
  exact absurd h.kind_cases (by rw [ht]; decide)

theorem Flat.genuine (h : Flat ts) : ∀ t ∈ ts, t.kind ≠ .eof := by
  obtain ⟨body, last, rfl, hlast, hbody⟩ := h.shape
  intro t ht heof
  rcases List.mem_append.mp ht with ht | ht
  · exact absurd (hbody t ht) (by rw [heof]; decide)
  · rw [List.mem_singleton.mp ht, hlast] at heof
    cases heof

/-- Reading from another identity on shifts the identities of the tree. -/
theorem reads_shift (shift : Identity) (h : Reads ⟨ts, i, []⟩ ss d) :
    Reads ⟨ts, i + shift, []⟩ (relabelStmts ⟨shift, id⟩ ss) ⟨d.ahead, d.nextId + shift, d.errors⟩ := by
  intro n m hn hm
  have hrun := (relabels_program (μ := ⟨shift, id⟩) (rules_relabel n).declaration m) ⟨ts, i, []⟩
  have htoken : Token.relabel ⟨shift, id⟩ = id := rfl
  have herror : SyntaxError.relabel ⟨shift, id⟩ = id := by
    funext ⟨found, cause⟩
    simp [SyntaxError.relabel, htoken]
  rw [h n m hn hm] at hrun
  simpa [Cursor.relabel, mapOutcome, htoken, herror] using hrun

theorem parseProgram_of_reads {stop : Token} (hstop : stop.kind = .eof)
    (hts : ∀ t ∈ ts, t.kind ≠ .eof) (h : Reads ⟨ts, i, []⟩ ss d) :
    parseProgram (ts ++ [stop]) i =
      ⟨if d.errors.isEmpty then .ok ss else .error d.errors, d.nextId⟩ := by
  have hrun := h _ _ (Nat.lt_succ_self _) (Nat.le_refl _)
  rw [parseProgram, readAll, beforeEnd_append hstop hts, hrun]

theorem reported_of_reads {stop : Token} (hstop : stop.kind = .eof)
    (hts : ∀ t ∈ ts, t.kind ≠ .eof) (h : Reads ⟨ts, i, []⟩ ss d) :
    reported (parseProgram (ts ++ [stop]) i).result = d.errors := by
  rw [parseProgram_of_reads hstop hts h]
  cases d.errors with
  | nil => rfl
  | cons e es => rfl

variable {Ts : List (List Token)} {ends : List Token → Token}

theorem genuine_flatten (hTs : ∀ T ∈ Ts, Flat T) : ∀ t ∈ Ts.flatten, t.kind ≠ .eof := by
  intro t ht
  obtain ⟨T, hT, ht⟩ := List.mem_flatten.mp ht
  exact (hTs T hT).genuine t ht

theorem not_begins_else_flatten (hTs : ∀ T ∈ Ts, Flat T) : ¬Begins .kwElse Ts.flatten := by
  cases Ts with
  | nil => exact begins_nil
  | cons T Ts =>
      have hT : Flat T := hTs T (List.mem_cons_self ..)
      obtain ⟨t, rest, rfl⟩ := hT.exists_cons
      exact hT.not_begins_else

/-- Flat lists one behind the other, from some identity and errors on. -/
theorem reads_flatten (hTs : ∀ T ∈ Ts, Flat T) (hends : ∀ T, (ends T).kind = .eof)
    (i j : Identity) (before : List SyntaxError) :
    ∃ parts d, Reads ⟨Ts.flatten, i, before⟩ parts.flatten d ∧
      d.errors = before ++ Ts.flatMap (fun T => reported (parseProgram (T ++ [ends T]) j).result) ∧
      List.Forall₂ (fun T part => ∃ own c shift, Reads ⟨T, j, []⟩ own c ∧
        part = relabelStmts ⟨shift, id⟩ own) Ts parts := by
  induction Ts generalizing i before with
  | nil => exact ⟨[], _, reads_nil, by simp, .nil⟩
  | cons T Ts ih =>
      have hT : Flat T := hTs T (List.mem_cons_self ..)
      have hTs' : ∀ T ∈ Ts, Flat T := fun T' hT' => hTs T' (List.mem_cons_of_mem _ hT')
      obtain ⟨own, c, hown, -⟩ := exists_reads (c := ⟨T, j, []⟩) hT.genuine
      have hpart := reads_shift (i - j) hown
      rw [show j + (i - j) = i by rw [UInt64.add_comm, UInt64.sub_add_cancel]] at hpart
      obtain ⟨parts, d, hrest, herrors, hparts⟩ := ih hTs' (c.nextId + (i - j)) (before ++ c.errors)
      have happend := (reads_append _ (.inl hT) (not_begins_else_flatten hTs') hT.genuine
        (by simp [Located]) hpart).2 _ _ hrest
      refine ⟨relabelStmts ⟨i - j, id⟩ own :: parts, d, ?_, ?_, .cons ⟨own, c, i - j, hown, rfl⟩ hparts⟩
      · simpa [Cursor.framed] using happend
      · rw [herrors, List.flatMap_cons, reported_of_reads (hends T) hT.genuine hown,
          List.append_assoc]

theorem located_reported {stop : Token} (hstop : stop.kind = .eof) (h : Flat ts) :
    Located (reported (parseProgram (ts ++ [stop]) i).result) := by
  obtain ⟨ss, d, hread, -⟩ := exists_reads (c := ⟨ts, i, []⟩) h.genuine
  rw [reported_of_reads hstop h.genuine hread]
  exact (reads_append [] (.inl h) begins_nil h.genuine (by simp [Located]) hread).1

/-- The diagnostics of a list of tokens that is read as a program. -/
def diagnostics (tokens : List Token) (firstId : Identity) : List Diagnostic :=
  (reported (parseProgram tokens firstId).result).map (.ofSyntax (Source.endToken tokens))

theorem Located.map_ofSyntax (h : Located es) (last last' : Token) :
    es.map (Diagnostic.ofSyntax last) = es.map (Diagnostic.ofSyntax last') := by
  refine List.map_congr_left fun e he => ?_
  obtain ⟨t, ht⟩ := Option.isSome_iff_exists.mp (h e he)
  simp [Diagnostic.ofSyntax, ht]

/-- Flat statements are read independently. Whatever their end markers, and from whichever identities
they are read, the diagnostics of a sequence are those of the statements on their own, in order. If
there are none, the tree is the sequence of the trees of the statements, up to identities. -/
theorem flat_statements_independent (Ts : List (List Token)) (ends : List Token → Token)
    (stop : Token) (i j : Identity) (hTs : ∀ T ∈ Ts, Flat T) (hends : ∀ T, (ends T).kind = .eof)
    (hstop : stop.kind = .eof) :
    diagnostics (Ts.flatten ++ [stop]) i = Ts.flatMap (fun T => diagnostics (T ++ [ends T]) j) ∧
      (diagnostics (Ts.flatten ++ [stop]) i = [] →
        ∃ parts, (parseProgram (Ts.flatten ++ [stop]) i).result = .ok parts.flatten ∧
          List.Forall₂ (fun T part => ∃ own shift,
            (parseProgram (T ++ [ends T]) j).result = .ok own ∧
              part = relabelStmts ⟨shift, id⟩ own) Ts parts) := by
  obtain ⟨parts, d, hread, herrors, hparts⟩ := reads_flatten hTs hends i j []
  have hgenuine := genuine_flatten hTs
  rw [List.nil_append] at herrors
  have hreported := reported_of_reads hstop hgenuine hread
  constructor
  · rw [diagnostics, hreported, herrors, List.map_flatMap]
    refine List.flatMap_congr fun T hT => ?_
    exact (located_reported (hends T) (hTs T hT)).map_ofSyntax _ _
  · intro hnone
    rw [diagnostics, hreported, List.map_eq_nil_iff] at hnone
    refine ⟨parts, ?_, ?_⟩
    · rw [parseProgram_of_reads hstop hgenuine hread, hnone]
      rfl
    · have hclean : ∀ T ∈ Ts, reported (parseProgram (T ++ [ends T]) j).result = [] :=
        List.flatMap_eq_nil_iff.mp (herrors.symm.trans hnone)
      have hall : ∀ T ∈ Ts, Flat T ∧ reported (parseProgram (T ++ [ends T]) j).result = [] :=
        fun T hT => ⟨hTs T hT, hclean T hT⟩
      refine ((List.forall₂_and_left _ _).mpr ⟨hall, hparts⟩).imp ?_
      rintro T part ⟨⟨hT, hclean⟩, own, c, shift, hown, hpart⟩
      rw [reported_of_reads (hends T) hT.genuine hown] at hclean
      refine ⟨own, shift, ?_, hpart⟩
      rw [parseProgram_of_reads (hends T) hT.genuine hown, hclean]
      rfl

/-- In the first statement, recovery stops at a keyword in the middle, and what follows it fails at the
semicolon; in the second one, the error is recorded without recovery. -/
theorem faulty_statements_independent :
    (∀ T ∈ [[⟨.identifier, "a", 1⟩, ⟨.kwNil, "nil", 1⟩, ⟨.kwPrint, "print", 1⟩, ⟨.semicolon, ";", 1⟩],
        [⟨.kwNil, "nil", 2⟩, ⟨.equal, "=", 2⟩, ⟨.kwNil, "nil", 2⟩, ⟨.semicolon, ";", 2⟩]], Flat T) ∧
      diagnostics [⟨.identifier, "a", 1⟩, ⟨.kwNil, "nil", 1⟩, ⟨.kwPrint, "print", 1⟩,
          ⟨.semicolon, ";", 1⟩, ⟨.kwNil, "nil", 2⟩, ⟨.equal, "=", 2⟩, ⟨.kwNil, "nil", 2⟩,
          ⟨.semicolon, ";", 2⟩, .eof 2] 0 =
        [.grammatical ⟨.kwNil, "nil", 1⟩ .noStatementEnd,
          .grammatical ⟨.semicolon, ";", 1⟩ .noExpression,
          .grammatical ⟨.equal, "=", 2⟩ .invalidTarget] := by
  have hflat : ∀ T ∈ [[⟨.identifier, "a", 1⟩, ⟨.kwNil, "nil", 1⟩, ⟨.kwPrint, "print", 1⟩,
        ⟨.semicolon, ";", 1⟩],
      [⟨.kwNil, "nil", 2⟩, ⟨.equal, "=", 2⟩, ⟨.kwNil, "nil", 2⟩, ⟨.semicolon, ";", 2⟩]], Flat T := by
    intro T hT
    refine ⟨T.dropLast, T.getLastD (.eof 0), ?_⟩
    revert T
    decide
  have hwhole := (flat_statements_independent _ (fun _ => .eof 1) (.eof 2) 0 0 hflat (fun _ => rfl)
    rfl).1
  exact ⟨hflat, hwhole.trans (by decide +kernel)⟩

end LoxLang.Grammar
