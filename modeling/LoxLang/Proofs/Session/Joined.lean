import LoxLang.Proofs.Session.Pieces
import LoxLang.Proofs.Session.Rejected

/-!
Texts in turn, and joined by line breaks. A session that runs the texts in turn, the last one without a
static error and all others without any error, comes to what it comes to where it runs the whole: the
same output, the same globals and objects, the same table and the same report, but on the line where the
token is in the whole.
-/

namespace LoxLang

open Scope Grammar Eval

namespace Session

/-- Runs a text as if it stood behind a number of lines. -/
def runBehind (fuel lines : Nat) (text : String) (s : Session) : Option (Step Answer) :=
  (s.whenRead (Source.program text s.nextId) fun ss =>
    runProgram fuel (movedStmts ⟨0, lines⟩ ss)).map (Step.map fun _ => .done)

/-- A session runs texts in turn, the last one without a static error and all others without any error.
How it runs a text may depend on the lines that are before it. The step is that of the last text. -/
inductive RunsInTurn (run : Nat → String → Session → Option (Step Answer)) :
    Nat → Session → String → List String → Step Answer → Prop
  | last {lines : Nat} {s : Session} {text : String} {t : Step Answer}
    (h : run lines text s = some t) (hstatus : t.status ≠ .staticError) :
    RunsInTurn run lines s text [] t
  | next {lines : Nat} {s : Session} {text after : String} {rest : List String} {t u : Step Answer}
    (h : run lines text s = some t) (hok : t.status = .ok)
    (hrest : RunsInTurn run (lines + lineSpan text) t.session after rest u) :
    RunsInTurn run lines s text (after :: rest) u

end Session

namespace Piece

/-- The program of a piece, behind a number of lines. -/
def chunk (lines : Nat) (p : Piece) : Chunk :=
  .program (movedStmts ⟨0, lines⟩ p.program)

end Piece

/-- A line of one of some texts, and where it is in the whole: further down by the lines that are before
the text. -/
inductive JoinedLine : Nat → String → List String → Nat → Nat → Prop
  | here {lines l : Nat} {text : String} {rest : List String} {i : Identity} {ss : List Stmt}
    (htree : (Source.program text i).tree? = some ss) (hl : l ∈ linesOfStmts ss) :
    JoinedLine lines text rest l (l + lines)
  | later {lines l l' : Nat} {text after : String} {rest : List String}
    (h : JoinedLine (lines + lineSpan text) after rest l l') :
    JoinedLine lines text (after :: rest) l l'

section

variable {L : Nat → Nat → Prop} {vs vs' : List Visit} {n n' : Nat} {W : World} {s u : Session}
  {fuel lines : Nat} {text : String} {rest : List String} {p : Piece} {ps : List Piece}
  {i j k : Identity} {t t' : Step Answer}

/-! ### Statements one after the other -/

theorem Eval.flush_ok {m m' : Machine} (h : flush m = .ok () m') : m' = m := by
  unfold flush at h
  simp only [Bind.bind, EStateM.bind, get, getThe, MonadStateOf.get, get_eq] at h
  cases hrefusal : m.output.flushRefusal with
  | some message =>
      rw [hrefusal] at h
      cases h
  | none =>
      rw [hrefusal] at h
      cases h
      rfl

/-- Statements that come to an end are followed by the statements behind them. The flush between them
changes nothing. -/
theorem Eval.interpret_append {σ : Setting} {ss : List Stmt} {m m' : Machine}
    (h : interpret σ fuel ss m = .ok () m') (ss' : List Stmt) :
    interpret σ fuel (ss ++ ss') m = interpret σ fuel ss' m' := by
  induction ss generalizing m with
  | nil => rw [List.nil_append, flush_ok h]
  | cons s ss ih =>
      obtain ⟨flow, m₁, hexec, hrest⟩ := bind_ok_iff.mp h
      exact (bind_of_ok hexec).trans (ih hrest)

theorem Session.perform_append {ss : List Stmt}
    (h : (u.perform fun σ => (Chunk.program ss).watched idle σ fuel) = some t)
    (hok : t.status = .ok) (ss' : List Stmt) :
    (u.perform fun σ => (Chunk.program (ss ++ ss')).watched idle σ fuel) =
      t.session.perform fun σ => (Chunk.program ss').watched idle σ fuel := by
  simp only [Chunk.watched, interpretWatched_idle] at h ⊢
  simp only [← perform_map] at h ⊢
  obtain ⟨t₀, ht₀, rfl⟩ := Option.map_eq_some_iff.mp h
  rcases perform_cases ht₀ with ⟨_, m, hrun, rfl⟩ | ⟨_, _, _, -, -, rfl⟩
  · have happend := interpret_append hrun ss'
    unfold perform Step.map
    dsimp only [setting] at happend ⊢
    rw [happend]
  · cases hok

/-! ### A piece -/

namespace Piece

theorem visits_chunk (lines : Nat) (p : Piece) :
    (p.chunk lines).visits = (Chunk.program p.program).visits.map (Visit.moved ⟨0, lines⟩) :=
  Chunk.visits_moved (.program p.program)

theorem Accepted.chunk (h : p.Accepted) (lines : Nat) : (p.chunk lines).Accepted :=
  Chunk.accepted_moved.mpr h

/-- The request for a piece. -/
theorem chunk?_eq (hlexical : lexicalErrorsOf (scan p.text) = [])
    (hparse : Derives (.declarations p.program) ⟨textTokens p.text, i⟩ ⟨[], j⟩) (fuel : Nat) :
    (Request.run fuel p.text).chunk? i = some (.program p.program) ∧
      (Request.run fuel p.text).nextId i = j := by
  obtain ⟨htree, hnext⟩ := Source.program_iff.mpr ⟨hlexical, hparse⟩
  exact ⟨Option.map_eq_some_iff.mpr ⟨_, htree, rfl⟩, hnext⟩

end Piece

section

variable (hlexical : lexicalErrorsOf (scan p.text) = [])
  (hparse : Derives (.declarations p.program) ⟨textTokens p.text, i⟩ ⟨[], j⟩)
  (haccepted : p.Accepted)

include hlexical hparse haccepted

theorem Session.handle_piece (hs : s.nextId = i) :
    s.handle (.run fuel p.text) = (s.entered (.run fuel p.text)).perform fun σ =>
      (Chunk.program p.program).watched idle σ fuel := by
  subst hs
  rw [handle_of_chunk (Piece.chunk?_eq hlexical hparse fuel).1]
  exact if_pos haccepted

theorem Session.runBehind_piece (hs : s.nextId = i) (lines : Nat) :
    s.runBehind fuel lines p.text = (s.entered (.run fuel p.text)).perform fun σ =>
      (p.chunk lines).watched idle σ fuel := by
  subst hs
  obtain ⟨hch, -⟩ := Piece.chunk?_eq hlexical hparse fuel
  obtain ⟨htree, -⟩ := Source.program_iff.mpr ⟨hlexical, hparse⟩
  have hfindings : resolveProgram (movedStmts ⟨0, lines⟩ p.program) =
      ⟨[], (Chunk.program p.program).findings.distances⟩ := by
    have hmoved : ((Chunk.program p.program).moved ⟨0, lines⟩).findings = _ := Chunk.findings_moved _
    rwa [haccepted, Piece.movedDistances_zero] at hmoved
  simp only [runBehind, whenRead, htree, runProgram, resolved_map, hfindings, Piece.chunk,
    Chunk.watched, interpretWatched_idle]
  simp only [resolved, entered, Request.distances, hch]
  rfl

omit haccepted in
theorem Session.session_of_piece {action : Setting → Eval Answer} (hs : s.nextId = i)
    (h : (s.entered (.run fuel p.text)).perform action = some t) :
    t.session.nextId = j ∧ t.session.natives = s.natives := by
  subst hs
  obtain ⟨m, hsession⟩ := session_of_perform h
  rw [hsession]
  exact ⟨(Piece.chunk?_eq hlexical hparse fuel).2, rfl⟩

theorem Session.Tabled.enter_piece (h : s.Tabled vs n) (hs : s.nextId = i)
    (hsize : n + p.text.length < UInt64.size) (fuel : Nat) :
    (s.entered (.run fuel p.text)).Tabled (vs ++ (Chunk.program p.program).visits)
      (n + p.text.length) := by
  subst hs
  have hentered := h.enter (.run fuel p.text) hsize
  rwa [Request.visits_of_accepted (Piece.chunk?_eq hlexical hparse fuel).1 haccepted] at hentered

/-- The table also says what the walk finds behind other lines. -/
theorem Session.Tabled.enter_chunk (h : s.Tabled vs n) (hs : s.nextId = i)
    (hsize : n + p.text.length < UInt64.size) (lines : Nat) :
    (s.entered (.run fuel p.text)).Tabled (vs ++ (p.chunk lines).visits) (n + p.text.length) := by
  have hentered := h.enter_piece hlexical hparse haccepted hs hsize fuel
  have hmem : ∀ {v}, v ∈ vs ++ (p.chunk lines).visits →
      ∃ w ∈ vs ++ (Chunk.program p.program).visits, w.ref.id = v.ref.id ∧
        w.distance? = v.distance? := by
    intro v hv
    rcases List.mem_append.mp hv with hv | hv
    · exact ⟨v, List.mem_append_left _ hv, rfl, rfl⟩
    · rw [Piece.visits_chunk] at hv
      obtain ⟨w, hw, rfl⟩ := List.mem_map.mp hv
      exact ⟨w, List.mem_append_right _ hw, (UInt64.add_zero _).symm, rfl⟩
  refine { hentered with visited := fun v hv => ?_, ids := fun v hv => ?_ }
  · obtain ⟨w, hw, hid, hdistance⟩ := hmem hv
    rw [← hid, ← hdistance]
    exact hentered.visited w hw
  · obtain ⟨w, hw, hid, -⟩ := hmem hv
    rw [← hid]
    exact hentered.ids w hw

end

/-- A session runs a piece as a tree that runs like the piece where it is in the whole. -/
structure Session.RunsLike (L : Nat → Nat → Prop) (fuel lines : Nat) (p : Piece) (s : Session)
    (x : Option (Step Answer)) (ch : Chunk) : Prop where
  step : x = (s.entered (.run fuel p.text)).perform fun σ => ch.watched idle σ fuel
  tabled : ∀ vs n, s.Tabled vs n → n + p.text.length < UInt64.size →
    (s.entered (.run fuel p.text)).Tabled (vs ++ ch.visits) (n + p.text.length)
  alike : ch.Alike (Paired L ch.visits (p.chunk lines).visits) L (p.chunk lines)

section

variable (hlexical : lexicalErrorsOf (scan p.text) = [])
  (hparse : Derives (.declarations p.program) ⟨textTokens p.text, s.nextId⟩ ⟨[], j⟩)
  (haccepted : p.Accepted) (hsize : s.nextId.toNat + p.text.length < UInt64.size)

include hlexical hparse haccepted hsize

/-- A piece is run like itself, on other lines. -/
theorem Session.runsLike_handle (hlines : ∀ l ∈ linesOfStmts p.program, L l (l + lines)) :
    s.RunsLike L fuel lines p (s.handle (.run fuel p.text)) (.program p.program) := by
  obtain ⟨hch, -⟩ := Piece.chunk?_eq hlexical hparse fuel
  refine ⟨handle_piece hlexical hparse haccepted rfl, fun vs n h hsize =>
    h.enter_piece hlexical hparse haccepted rfl hsize fuel, ?_⟩
  obtain ⟨hspelled, hnumbered⟩ := Request.chunk_read hch hsize
  have hself := Chunk.alike_self hspelled hnumbered haccepted
  have hpaired := Scope.Alike.paired hself (fun _ _ => maps_same) ⟨0, lines⟩
  have hline : ∀ l l', MovedLine Eq ⟨0, lines⟩ l l' → l ∈ linesOfStmts p.program → L l l' := by
    rintro l _ ⟨_, rfl, rfl⟩ hl
    exact hlines l hl
  refine Scope.Alike.imp (fun Γ ref ref' href hl => ?_) hline hpaired fun l hl => hl
  rw [Piece.visits_chunk]
  exact href.imp (fun h => hline _ _ h hl) (fun _ hv => hv) fun _ hv => hv

/-- A piece that is run behind lines is run like itself. -/
theorem Session.runsLike_runBehind :
    s.RunsLike Eq fuel lines p (s.runBehind fuel lines p.text) (p.chunk lines) := by
  refine ⟨runBehind_piece hlexical hparse haccepted rfl lines, fun vs n h hsize =>
    h.enter_chunk hlexical hparse haccepted rfl hsize lines, ?_⟩
  have hmoved := hparse.moved_lines lines
  have hspelled : (p.chunk lines).Spelled := by
    refine hmoved.spelled fun t ht => ?_
    obtain ⟨t₀, ht₀, rfl⟩ := List.mem_map.mp ht
    obtain ⟨hidentifier, hthis, hsuper⟩ := (scanned_textTokens p.text).genuine t₀ ht₀
    exact ⟨hidentifier, hthis, hsuper⟩
  have hfits : Input.Fits ⟨(textTokens p.text).map (Token.moved ⟨0, lines⟩), s.nextId⟩ := by
    rw [Input.Fits, List.length_map]
    exact fits_textTokens hsize
  have hlength := Nat.lt_of_le_of_lt (Nat.le_add_left ..) hfits
  have hnumbered := hmoved.numbered hlength (hmoved.grows hfits) .initial []
  have hself := Chunk.alike_self hspelled hnumbered (haccepted.chunk lines)
  exact hself.imp fun _ _ _ => Placed.paired

end

/-- A session runs a piece, and its shadow runs the statements of the piece in the whole. -/
theorem Session.Shadows.piece (h : s.Shadows L vs vs' n n' W u)
    (hnatives : ∀ native ∈ s.natives, native.Faithful) (hsize : n + p.text.length < UInt64.size)
    (hvisits : ∀ v ∈ (p.chunk lines).visits, v ∈ vs') {x : Option (Step Answer)} {ch : Chunk}
    (hlike : s.RunsLike L fuel lines p x ch) :
    Option.Rel (Step.Shadows L (vs ++ ch.visits) vs' (n + p.text.length) n') x
      (u.perform fun σ => (p.chunk lines).watched idle σ fuel) := by
  have halike : ch.Alike (Paired L (vs ++ ch.visits) vs') L (p.chunk lines) :=
    hlike.alike.imp fun _ _ _ href => href.mono (fun _ hv => List.mem_append_right _ hv) hvisits
  have hentered : (s.entered (.run fuel p.text)).Shadows L (vs ++ ch.visits) vs'
      (n + p.text.length) n' W u := by
    refine ⟨h.good.imp fun _ _ _ href => ?_, h.machines, h.natives,
      hlike.tabled vs n h.tabled hsize, h.tabled'⟩
    exact href.mono (fun _ hv => List.mem_append_left _ hv) fun _ hv => hv
  rw [hlike.step]
  exact hentered.perform hnatives halike fuel

/-! ### Pieces in turn -/

theorem length_joined (text after : String) (rest : List String) :
    (joined text (after :: rest)).length = text.length + (1 + (joined after rest).length) := by
  rw [joined, String.length_append, String.length_append, Nat.add_assoc]
  rfl

/-- A text that is run without a static error is a piece. -/
theorem Session.piece_of_handle (h : s.handle (.run fuel text) = some t)
    (hstatus : t.status ≠ .staticError) :
    ∃ ss, lexicalErrorsOf (scan text) = [] ∧
      Derives (.declarations ss) ⟨textTokens text, s.nextId⟩ ⟨[], t.session.nextId⟩ ∧
        Piece.Accepted ⟨text, ss⟩ ∧
          t.session.distances = (Chunk.program ss).findings.distances ++ s.distances := by
  rcases kept_or_entered h with ⟨-, ch, hch, haccepted⟩ | ⟨hdropped, -⟩
  · obtain ⟨m, hsession⟩ := session_of_handle h
    obtain ⟨ss, htree, rfl⟩ := Option.map_eq_some_iff.mp hch
    obtain ⟨hlexical, hparse⟩ := Source.program_iff.mp ⟨htree, rfl⟩
    refine ⟨ss, hlexical, ?_, haccepted, ?_⟩
    · rw [hsession]
      exact hparse
    · rw [distances_of_handle h, Request.distances, hch]
      rfl
  · exact absurd ⟨rfl, hstatus⟩ hdropped

/-- Texts that are run in turn are pieces. -/
theorem Session.RunsInTurn.pieces
    (h : s.RunsInTurn (fun _ text => Session.handle (.run fuel text)) lines text rest t) :
    ∃ p ps, p.text = text ∧ ps.map Piece.text = rest ∧
      Piece.Read s.nextId (p :: ps) t.session.nextId ∧ (∀ q ∈ p :: ps, q.Accepted) ∧
        t.session.distances = Piece.joinedDistances (p :: ps) ++ s.distances := by
  induction h with
  | last h hstatus =>
      obtain ⟨ss, hlexical, hparse, haccepted, hdistances⟩ := piece_of_handle h hstatus
      refine ⟨⟨_, ss⟩, [], rfl, rfl, .cons hlexical hparse .nil, ?_, hdistances⟩
      exact List.forall_mem_singleton.mpr haccepted
  | next h hok _ ih =>
      obtain ⟨ss, hlexical, hparse, haccepted, hdistances⟩ :=
        piece_of_handle h (by rw [hok]; decide)
      obtain ⟨p, ps, rfl, rfl, hread, hrest, hdistances'⟩ := ih
      refine ⟨⟨_, ss⟩, p :: ps, rfl, rfl, .cons hlexical hparse hread, ?_, ?_⟩
      · exact List.forall_mem_cons.mpr ⟨haccepted, hrest⟩
      · rw [hdistances', hdistances, ← List.append_assoc]
        rfl

/-- A session runs a piece, and its shadow can run it behind lines. -/
theorem Session.Shadows.behind (h : s.Shadows (fun _ _ => True) vs vs' n n W u)
    (hnext : u.nextId = s.nextId) (hnatives : ∀ native ∈ s.natives, native.Faithful)
    (hlexical : lexicalErrorsOf (scan p.text) = [])
    (hparse : Derives (.declarations p.program) ⟨textTokens p.text, s.nextId⟩ ⟨[], j⟩)
    (haccepted : p.Accepted) (hsize : n + p.text.length < UInt64.size) (fuel lines : Nat) :
    Option.Rel (Step.Shadows (fun _ _ => True) (vs ++ (Chunk.program p.program).visits)
        (vs' ++ (p.chunk lines).visits) (n + p.text.length) (n + p.text.length))
      (s.handle (.run fuel p.text)) (u.runBehind fuel lines p.text) := by
  have hsize' : s.nextId.toNat + p.text.length < UInt64.size :=
    Nat.lt_of_le_of_lt (Nat.add_le_add_right h.tabled.nextId _) hsize
  have hentered : s.Shadows (fun _ _ => True) vs (vs' ++ (p.chunk lines).visits) n
      (n + p.text.length) W (u.entered (.run fuel p.text)) := by
    refine ⟨h.good.imp fun _ _ _ href => ?_, h.machines, h.natives, h.tabled,
      h.tabled'.enter_chunk hlexical hparse haccepted hnext hsize lines⟩
    exact href.mono (fun _ hv => hv) fun _ hv => List.mem_append_left _ hv
  rw [runBehind_piece hlexical hparse haccepted hnext]
  exact hentered.piece hnatives hsize (fun _ hv => List.mem_append_right _ hv)
    (runsLike_handle hlexical hparse haccepted hsize' fun _ _ => trivial)

/-- Where a session runs pieces in turn, its shadow can do so with every piece behind the lines of those
before it. -/
theorem Session.RunsInTurn.behind (h : s.Shadows (fun _ _ => True) vs vs' n n W u)
    (hnext : u.nextId = s.nextId) (hnatives : ∀ native ∈ s.natives, native.Faithful)
    (hread : Piece.Read s.nextId (p :: ps) k) (haccepted : ∀ q ∈ p :: ps, q.Accepted)
    (hsize : n + (joined p.text (ps.map Piece.text)).length < UInt64.size)
    (hrun : s.RunsInTurn (fun _ text => Session.handle (.run fuel text)) lines p.text
      (ps.map Piece.text) t) :
    ∃ t', u.RunsInTurn (Session.runBehind fuel) lines p.text (ps.map Piece.text) t' := by
  induction ps generalizing p s u vs vs' n W lines with
  | nil =>
      obtain _ | ⟨hlexical, hparse, -⟩ := hread
      have hstep := h.behind hnext hnatives hlexical hparse (haccepted p (List.mem_cons_self ..)) hsize
        fuel lines
      cases hrun with
      | last hfirst hstatus =>
          rw [hfirst] at hstep
          generalize ht' : u.runBehind fuel lines p.text = x' at hstep
          cases hstep with
          | some hshadows => exact ⟨_, .last ht' (hshadows.status ▸ hstatus)⟩
  | cons q qs ih =>
      rw [List.map_cons, length_joined, ← Nat.add_assoc] at hsize
      obtain _ | ⟨hlexical, hparse, hrest⟩ := hread
      obtain ⟨haccepted, haccepted'⟩ := List.forall_mem_cons.mp haccepted
      have hstep := h.behind hnext hnatives hlexical hparse haccepted (by omega) fuel lines
      cases hrun with
      | next hfirst hok hlater =>
          rw [hfirst] at hstep
          generalize ht' : u.runBehind fuel lines p.text = x' at hstep
          cases hstep with
          | some hshadows =>
              obtain ⟨W', hnow⟩ := hshadows.session
              obtain ⟨hid, hsame⟩ := Session.session_of_piece hlexical hparse rfl
                ((Session.handle_piece hlexical hparse haccepted rfl).symm.trans hfirst)
              obtain ⟨hid', -⟩ := Session.session_of_piece hlexical hparse hnext
                ((Session.runBehind_piece hlexical hparse haccepted hnext lines).symm.trans ht')
              obtain ⟨t', hruns⟩ := ih hnow (hid'.trans hid.symm) (hsame ▸ hnatives) (hid ▸ hrest)
                haccepted' (by omega) hlater
              exact ⟨t', .next ht' (hshadows.status.trans hok) hruns⟩

/-- Where a session runs pieces in turn, in any way that runs them like the pieces in the whole, its
shadow runs the whole. `M` is what that way needs of lines. -/
theorem Session.RunsInTurn.whole {run : Nat → String → Session → Option (Step Answer)}
    {M : Nat → Nat → Prop}
    (hlike : ∀ {s : Session} {p : Piece} {j : Identity} {lines : Nat},
      lexicalErrorsOf (scan p.text) = [] →
        Derives (.declarations p.program) ⟨textTokens p.text, s.nextId⟩ ⟨[], j⟩ → p.Accepted →
          s.nextId.toNat + p.text.length < UInt64.size →
            (∀ l ∈ linesOfStmts p.program, M l (l + lines)) →
              ∃ ch, s.RunsLike L fuel lines p (run lines p.text s) ch)
    (h : s.Shadows L vs vs' n n' W u)
    (hnatives : ∀ native ∈ s.natives, native.Faithful) (hread : Piece.Read s.nextId (p :: ps) k)
    (haccepted : ∀ q ∈ p :: ps, q.Accepted)
    (hlines : ∀ l l', JoinedLine lines p.text (ps.map Piece.text) l l' → M l l')
    (hvisits : ∀ v ∈ Piece.joinedVisits lines (p :: ps), v ∈ vs')
    (hsize : n + (joined p.text (ps.map Piece.text)).length < UInt64.size)
    (hrun : s.RunsInTurn run lines p.text (ps.map Piece.text) t) :
    ∃ t' vs₁ n₁, (u.perform fun σ =>
        (Chunk.program (Piece.joinedProgram lines (p :: ps))).watched idle σ fuel) = some t' ∧
      Step.Shadows L vs₁ vs' n₁ n' t t' := by
  induction ps generalizing p s u vs n W lines with
  | nil =>
      obtain _ | ⟨hlexical, hparse, -⟩ := hread
      have htree := (Source.program_iff.mpr ⟨hlexical, hparse⟩).1
      obtain ⟨ch, hpiece⟩ := hlike hlexical hparse (haccepted p (List.mem_cons_self ..))
        (Nat.lt_of_le_of_lt (Nat.add_le_add_right h.tabled.nextId _) hsize)
        fun l hl => hlines _ _ (.here htree hl)
      have hstep := h.piece hnatives hsize
        (fun v hv => hvisits v (List.mem_append_left _ (Piece.visits_chunk lines p ▸ hv))) hpiece
      cases hrun with
      | last hfirst =>
          rw [hfirst] at hstep
          rw [Piece.joinedProgram, Piece.joinedProgram, List.append_nil]
          change ∃ t' vs₁ n₁, (u.perform fun σ => (p.chunk lines).watched idle σ fuel) = some t' ∧ _
          generalize ht' : (u.perform fun σ => (p.chunk lines).watched idle σ fuel) = x' at hstep
          cases hstep with
          | some hshadows => exact ⟨_, _, _, rfl, hshadows⟩
  | cons q qs ih =>
      rw [List.map_cons, length_joined, ← Nat.add_assoc] at hsize
      obtain _ | ⟨hlexical, hparse, hrest⟩ := hread
      obtain ⟨haccepted, haccepted'⟩ := List.forall_mem_cons.mp haccepted
      obtain ⟨hvisits, hvisits'⟩ := List.forall_mem_append.mp hvisits
      have htree := (Source.program_iff.mpr ⟨hlexical, hparse⟩).1
      have hfirst : n + p.text.length < UInt64.size := by omega
      obtain ⟨ch, hpiece⟩ := hlike hlexical hparse haccepted
        (Nat.lt_of_le_of_lt (Nat.add_le_add_right h.tabled.nextId _) hfirst)
        fun l hl => hlines _ _ (.here htree hl)
      have hstep := h.piece hnatives hfirst
        (fun v hv => hvisits v (Piece.visits_chunk lines p ▸ hv)) hpiece
      cases hrun with
      | next hrun hok hlater =>
          rw [hrun] at hstep
          generalize ht' : (u.perform fun σ => (p.chunk lines).watched idle σ fuel) = x' at hstep
          cases hstep with
          | some hshadows =>
              obtain ⟨W', hnow⟩ := hshadows.session
              obtain ⟨hid, hsame⟩ := Session.session_of_piece hlexical hparse rfl
                (hpiece.step.symm.trans hrun)
              obtain ⟨t', vs₁, n₁, hperform, hend⟩ := ih hnow (hsame ▸ hnatives) (hid ▸ hrest)
                haccepted' (fun l l' hl => hlines l l' (.later hl)) hvisits' (by omega) hlater
              refine ⟨t', vs₁, n₁, ?_, hend⟩
              rw [Piece.joinedProgram]
              exact (Session.perform_append ht' (hshadows.status.trans hok) _).trans hperform

/-! ### The whole -/

/-- Where a line is in the whole of some texts: further down if it is one of a text, and where it was if
it is one of code that a session has already. -/
def Session.LineInWhole (s : Session) (text : String) (rest : List String) (l l' : Nat) : Prop :=
  JoinedLine 0 text rest l l' ∨
    l' = l ∧ ∃ f < s.machine.heap.functions.size, l ∈ (s.machine.heap.function f).decl.lines

/-- Functions with the same code, but for identities and lines, and for the names of variables that
nothing refers to. -/
def SameCode (L : Nat → Nat → Prop) (d d' : FunctionDecl) : Prop :=
  ∃ Γ, Scope.Alike (fun Γ ref ref' => L ref.name.line ref'.name.line ∧
    ref'.name.lexeme = ref.name.lexeme ∧ Γ.nameOf ref.name.lexeme = ref.name.lexeme) L Γ (.decl d d')

/-- Two steps that come to the same, but for the lines of reports and of code. -/
structure Step.Joins (L : Nat → Nat → Prop) (t t' : Step Answer) : Prop where
  status : t'.status = t.status
  reports : List.Forall₂ (Diagnostic.OnLines L) t.reports t'.reports
  output : t'.session.machine.output = t.session.machine.output
  globals : (t'.session.machine.heap.frame Heap.globals).bindings =
    (t.session.machine.heap.frame Heap.globals).bindings
  sight : t.session.machine.heap.SameSight t'.session.machine.heap []
  functions : ∀ f, (t'.session.machine.heap.function f).closure =
      (t.session.machine.heap.function f).closure ∧
    (t'.session.machine.heap.function f).isInitializer =
      (t.session.machine.heap.function f).isInitializer
  code : ∀ f, t.session.machine.heap.Holds (.function f) →
    SameCode L (t.session.machine.heap.function f).decl (t'.session.machine.heap.function f).decl
  methods : ∀ c < t.session.machine.heap.classes.size, ∀ name f,
    (t.session.machine.heap.classObject c).methods.find? name = some f →
      SameCode L (t.session.machine.heap.function f).decl (t'.session.machine.heap.function f).decl
  distances : t'.session.distances = t.session.distances
  nextId : t'.session.nextId = t.session.nextId

theorem Step.Shadows.joins (h : t.Shadows L vs vs' n n' t')
    (hdistances : t'.session.distances = t.session.distances)
    (hid : t'.session.nextId = t.session.nextId) : t.Joins L t' := by
  obtain ⟨W, hworld⟩ := h.session
  have hgood := hworld.good
  have hsame : ∀ {Γ f}, Scope.Alike (Paired L vs vs') L Γ
      (.decl (W.left.function f).decl (W.right.function f).decl) →
        SameCode L (W.left.function f).decl (W.right.function f).decl :=
    fun {Γ} _ hcode => ⟨Γ, hcode.mono fun _ _ _ href => ⟨href.line, href.lexeme, href.nameOf⟩⟩
  refine ⟨h.status, h.reports, h.output, ?_, ?_, ?_, ?_, ?_, hdistances, hid⟩
  all_goals rw [hworld.machines.left, hworld.machines.right]
  · rw [hgood.bindings, hgood.global_names]
    exact Bindings.rename_id _
  · exact hgood.sameSight (by simp)
  · exact hgood.functions
  · intro f hf
    obtain ⟨-, ⟨Γ, hcode, -⟩, -⟩ := hgood.valid_of_holds hf
    exact hsame hcode
  · intro c hc name f hf
    obtain ⟨-, Γ, hcode, -⟩ := hgood.methods c hc name f hf
    exact hsame hcode

/-- Texts that are run in turn come to what the whole comes to. Its report is the one that the texts have
if each one is run behind the lines of those before it; without that it is on a line of a token of some
text, which is further down in the whole by these lines, or on a line of code from before. -/
theorem run_joined {natives : List Native} {output : Output}
    (hnatives : ∀ native ∈ natives, native.Faithful) (h : History natives output s vs n)
    (hsize : n + (joined text rest).length < UInt64.size)
    (hrun : s.RunsInTurn (fun _ text => Session.handle (.run fuel text)) 0 text rest t) :
    ∃ t', s.handle (.run fuel (joined text rest)) = some t' ∧
      Step.Joins (s.LineInWhole text rest) t t' ∧
      ∃ u, s.RunsInTurn (Session.runBehind fuel) 0 text rest u ∧ u.reports = t'.reports := by
  have hfaithful : ∀ native ∈ s.natives, native.Faithful := h.natives_eq ▸ hnatives
  obtain ⟨W, hself⟩ := h.shadows hnatives (Nat.lt_of_le_of_lt (Nat.le_add_right ..) hsize)
  obtain ⟨p, ps, rfl, rfl, hread, haccepted, hdistances⟩ := hrun.pieces
  obtain ⟨hch, hid, hwhole, htable, hvisits⟩ := Piece.chunk_joined hread haccepted fuel
  generalize hr : Request.run fuel (joined p.text (ps.map Piece.text)) = r at *
  have hlength : r.text = joined p.text (ps.map Piece.text) := congrArg Request.text hr.symm
  have hfuel : r.fuel = fuel := congrArg Request.fuel hr.symm
  have hentered : s.Shadows Eq vs (vs ++ r.visits s.nextId) n (n + r.text.length) W
      (s.entered r) := by
    refine ⟨hself.good.imp fun _ _ _ href => ?_, hself.machines, rfl, hself.tabled,
      hself.tabled.enter r (hlength ▸ hsize)⟩
    exact href.mono (fun _ hv => hv) fun _ hv => List.mem_append_left _ hv
  have hinside : ∀ v ∈ Piece.joinedVisits 0 (p :: ps), v ∈ vs ++ r.visits s.nextId :=
    fun v hv => List.mem_append_right _ (hvisits ▸ hv)
  -- The texts as they are, and the texts behind the lines before them, each beside the whole.
  have hlines := hentered.onLines (L := s.LineInWhole p.text (ps.map Piece.text))
    fun f hf l hl => .inr ⟨rfl, f, hf, hl⟩
  obtain ⟨t', vs₁, n₁, hperform, hsame⟩ := hrun.whole
    (fun hlexical hparse haccepted hsize hlines =>
      ⟨_, Session.runsLike_handle hlexical hparse haccepted hsize hlines⟩)
    hlines hfaithful hread haccepted (fun l l' hl => .inl hl) hinside hsize
  obtain ⟨w, hbehind⟩ := hrun.behind (hself.onLines fun _ _ _ _ => trivial) rfl hfaithful hread
    haccepted hsize
  obtain ⟨t'', vs₂, n₂, hperform', hmoved⟩ := hbehind.whole (M := fun _ _ => True)
    (fun hlexical hparse haccepted hsize _ =>
      ⟨_, Session.runsLike_runBehind hlexical hparse haccepted hsize⟩)
    hentered hfaithful hread haccepted (fun _ _ _ => trivial) hinside hsize
  cases hperform.symm.trans hperform'
  have hhandle : s.handle r = some t' := by
    rw [Session.handle_of_chunk hch, if_pos hwhole, hfuel]
    exact hperform
  obtain ⟨m, hsession⟩ := Session.session_of_handle hhandle
  refine ⟨t', hhandle, hsame.joins ?_ ?_, w, hbehind, hmoved.reports_eq.symm⟩
  · rw [Session.distances_of_handle hhandle, htable, hdistances]
  · rw [hsession]
    exact hid

/-- A variable that is missing in the second of two texts. -/
theorem run_joined_undefined :
    ∃ t, (Session.initial [.clock 0] .unlimited).RunsInTurn
        (fun _ text => Session.handle (.run 9 text)) 0 "var a = nil;" ["print a;\nprint b;"] t ∧
      ∃ t', (Session.initial [.clock 0] .unlimited).handle
          (.run 9 "var a = nil;\nprint a;\nprint b;") = some t' ∧
        t.reports = [.runtime 2 (.undefinedVariable "b")] ∧
        t'.reports = [.runtime 3 (.undefinedVariable "b")] ∧
        ∃ u, (Session.initial [.clock 0] .unlimited).RunsInTurn (Session.runBehind 9) 0 "var a = nil;"
          ["print a;\nprint b;"] u ∧ u.reports = t'.reports := by
  have hrun : (((Session.initial [.clock 0] .unlimited).handle (.run 9 "var a = nil;")).bind fun t =>
      (t.session.handle (.run 9 "print a;\nprint b;")).map fun t' =>
        (t.status, t'.status, t'.reports)) =
          some (.ok, .runtimeError, [.runtime 2 (.undefinedVariable "b")]) := by decide +kernel
  have hwhole : ((Session.initial [.clock 0] .unlimited).handle
      (.run 9 "var a = nil;\nprint a;\nprint b;")).map Step.reports =
        some [.runtime 3 (.undefinedVariable "b")] := by decide +kernel
  obtain ⟨t₁, h₁, hsecond⟩ := Option.bind_eq_some_iff.mp hrun
  obtain ⟨t, ht, hstatus⟩ := Option.map_eq_some_iff.mp hsecond
  obtain ⟨hok, hlast, hreports⟩ : t₁.status = .ok ∧ t.status = .runtimeError ∧
      t.reports = [.runtime 2 (.undefinedVariable "b")] := by simpa using hstatus
  have hturn : (Session.initial [.clock 0] .unlimited).RunsInTurn
      (fun _ text => Session.handle (.run 9 text)) 0 "var a = nil;" ["print a;\nprint b;"] t :=
    .next h₁ hok (.last ht (by rw [hlast]; decide))
  obtain ⟨t', ht', -, u, hu, hsame⟩ := run_joined (Native.faithful_of_clock 0 _)
    (.start : History [.clock 0] .unlimited _ _ _) (by decide) hturn
  obtain ⟨t'', ht'', hreports'⟩ := Option.map_eq_some_iff.mp hwhole
  have heq : t'' = t' := Option.some.inj (ht''.symm.trans ht')
  exact ⟨t, hturn, t', ht', hreports, heq ▸ hreports', u, hu, hsame⟩

end

end LoxLang
