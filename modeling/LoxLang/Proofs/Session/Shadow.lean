import LoxLang.Proofs.Grammar.Move
import LoxLang.Proofs.Scope.Move
import LoxLang.Proofs.Session.Moments

/-!
Two sessions that have run the same code from different places. Their heaps are those of a world, but
references have other identities in the second session, and may be on other lines. Each session has a
table that fits its own references, and that is all that running needs: the sessions answer alike.
-/

namespace LoxLang

open Scope Grammar Eval

/-! ### Chunks in another place -/

namespace Chunk

variable {δ : Move} {ch : Chunk}

def moved (δ : Move) : Chunk → Chunk
  | program ss => .program (movedStmts δ ss)
  | expression e => .expression (e.moved δ)

theorem findings_moved (ch : Chunk) : (ch.moved δ).findings =
    ⟨ch.findings.errors.map (StaticError.moved δ), movedDistances δ ch.findings.distances⟩ := by
  have hfindings : ∀ c : Context, (c.moved δ [] []).findings =
      ⟨c.findings.errors.map (StaticError.moved δ), movedDistances δ c.findings.distances⟩ := by
    intro c
    simp [Context.findings, Context.moved]
  cases ch with
  | program ss =>
      exact (congrArg Context.findings (walkStmts_moved ss .initial)).trans (hfindings _)
  | expression e =>
      exact (congrArg Context.findings (e.walk_moved .initial)).trans (hfindings _)

theorem accepted_moved : (ch.moved δ).Accepted ↔ ch.Accepted := by
  rw [Accepted, findings_moved, List.map_eq_nil_iff, Accepted]

theorem visits_moved (ch : Chunk) : (ch.moved δ).visits = ch.visits.map (Visit.moved δ) := by
  cases ch with
  | program ss =>
      have hvisits : visitsStmts (movedStmts δ ss) (Context.initial.moved δ [] []) [] = _ :=
        visitsStmts_moved ss .initial []
      exact hvisits
  | expression e =>
      have hvisits : (e.moved δ).visits (Context.initial.moved δ [] []) [] = _ :=
        e.visits_moved .initial []
      exact hvisits

end Chunk

/-- Tokens that stay on their lines. -/
theorem map_moved_of_lines_eq_zero {δ : Move} (hlines : δ.lines = 0) (ts : List Token) :
    ts.map (Token.moved δ) = ts := by
  refine (List.map_congr_left fun t _ => ?_).trans (List.map_id ts)
  rw [Token.moved, hlines]
  rfl

theorem shift_between (i j : Identity) : i + (j - i) = j := by
  rw [UInt64.add_comm, UInt64.sub_add_cancel]

/-- The same text is read to the same tree from another identity on, but for the identities. -/
theorem Request.chunk_moved {r : Request} {i : Identity} {ch : Chunk} (h : r.chunk? i = some ch)
    (j : Identity) : r.chunk? j = some (ch.moved ⟨j - i, 0⟩) := by
  obtain ⟨hlexical, hread⟩ := r.derives_chunk h
  rw [← beforeEnd_scan] at hread
  cases r with
  | run fuel text =>
      obtain ⟨ss, -, rfl⟩ := Option.map_eq_some_iff.mp h
      have hmoved := Derives.declarations_moved hread ⟨j - i, 0⟩
      rw [map_moved_of_lines_eq_zero rfl, shift_between, beforeEnd_scan] at hmoved
      exact Option.map_eq_some_iff.mpr ⟨_, (Source.program_iff.mpr ⟨hlexical, hmoved⟩).1, rfl⟩
  | evaluate fuel text =>
      obtain ⟨e, -, rfl⟩ := Option.map_eq_some_iff.mp h
      have hmoved := Derives.expression_moved hread ⟨j - i, 0⟩
      rw [map_moved_of_lines_eq_zero rfl, shift_between, beforeEnd_scan] at hmoved
      exact Option.map_eq_some_iff.mpr ⟨_, (Source.expression_iff.mpr ⟨hlexical, hmoved⟩).1, rfl⟩
  | parse text => cases h

/-! ### Pairs of references -/

/-- Two references that the walks over two programs have visited in the same scopes. -/
structure Paired (L : Nat → Nat → Prop) (vs vs' : List Visit) (Γ : Layers) (ref ref' : Reference) :
    Prop where
  line : L ref.name.line ref'.name.line
  lexeme : ref'.name.lexeme = ref.name.lexeme
  nameOf : Γ.nameOf ref.name.lexeme = ref.name.lexeme
  visited : ⟨ref, Γ.scopes, Γ.origins⟩ ∈ vs
  visited' : ∃ v ∈ vs', v.ref.id = ref'.id ∧ v.ref.name.lexeme = ref'.name.lexeme ∧
    v.scopes = Γ.scopes

section

variable {L : Nat → Nat → Prop} {vs vs' us us' : List Visit} {Γ : Layers} {ref ref' : Reference}
  {s s' : Session} {n n' : Nat} {W : World} {r : Request} {ch ch' : Chunk}

theorem Paired.imp {L' : Nat → Nat → Prop} (h : Paired L vs vs' Γ ref ref')
    (hline : L ref.name.line ref'.name.line → L' ref.name.line ref'.name.line)
    (hvs : ∀ v ∈ vs, v ∈ us) (hvs' : ∀ v ∈ vs', v ∈ us') : Paired L' us us' Γ ref ref' := by
  obtain ⟨v, hv, hsame⟩ := h.visited'
  exact { h with line := hline h.line, visited := hvs _ h.visited, visited' := ⟨v, hvs' v hv, hsame⟩ }

theorem Paired.mono (h : Paired L vs vs' Γ ref ref') (hvs : ∀ v ∈ vs, v ∈ us)
    (hvs' : ∀ v ∈ vs', v ∈ us') : Paired L us us' Γ ref ref' :=
  h.imp id hvs hvs'

/-- Tables that fit what has been visited say where pairs of references are bound. -/
theorem Session.Tabled.tables (h : s.Tabled vs n) (h' : s'.Tabled vs' n') :
    Lockstep.Tables (Paired L vs vs') L s.setting s'.setting := by
  intro Γ ref ref' hpaired
  obtain ⟨v, hv, hid, hlexeme, hscopes⟩ := hpaired.visited'
  refine ⟨hpaired.line, ?_, ?_, hpaired.lexeme.trans hpaired.nameOf.symm⟩
  · exact (h.visited _ hpaired.visited).trans (Layers.distance?_eq_scopes Γ _).symm
  · change s'.distances.lookup ref'.id = _
    rw [← hid, h'.visited v hv, Visit.distance?, hscopes, hlexeme, hpaired.lexeme,
      Layers.distance?_eq_scopes]

/-! ### Sessions -/

/-- Two sessions whose machines are those of a world, each with a table for its own references. -/
structure Session.Shadows (L : Nat → Nat → Prop) (vs vs' : List Visit) (n n' : Nat) (W : World)
    (s s' : Session) : Prop where
  good : W.Good (Paired L vs vs') L
  machines : W.InStep Heap.globals s.machine s'.machine
  natives : s'.natives = s.natives
  tabled : s.Tabled vs n
  tabled' : s'.Tabled vs' n'

/-- Reports that agree but for their lines. -/
inductive Diagnostic.OnLines (L : Nat → Nat → Prop) : Diagnostic → Diagnostic → Prop
  | host (message : String) : OnLines L (.host message) (.host message)
  | runtime {line line' : Nat} {cause : RuntimeCause} (h : L line line') :
    OnLines L (.runtime line cause) (.runtime line' cause)

/-- What two such sessions answer. -/
structure Step.Shadows (L : Nat → Nat → Prop) (vs vs' : List Visit) (n n' : Nat)
    (t t' : Step Answer) : Prop where
  status : t'.status = t.status
  reports : List.Forall₂ (Diagnostic.OnLines L) t.reports t'.reports
  result : t'.result = t.result
  texts : ∀ v, t.result = some (.value v) →
    v.SameTexts t.session.machine.heap t'.session.machine.heap
  output : t'.session.machine.output = t.session.machine.output
  session : ∃ W, t.session.Shadows L vs vs' n n' W t'.session

theorem Diagnostic.OnLines.eq {d d' : Diagnostic} (h : d.OnLines Eq d') : d = d' := by
  cases h with
  | host => rfl
  | runtime h => rw [h]

theorem Step.Shadows.reports_eq {t t' : Step Answer} (h : Shadows Eq vs vs' n n' t t') :
    t'.reports = t.reports :=
  (List.forall₂_eq_eq_eq ▸ h.reports.imp fun _ _ => Diagnostic.OnLines.eq).symm

theorem FaultsAlike.onLines {f f' : Fault} (h : FaultsAlike (Paired L vs vs') L f f') :
    Option.Rel (Diagnostic.OnLines L) (Diagnostic.ofFault? f) (Diagnostic.ofFault? f') := by
  cases h with
  | output message => exact .some (.host message)
  | outOfFuel => exact .none
  | runtime hline _ => exact .some (.runtime hline)
  | missing href hline _ =>
      rw [href.lexeme]
      exact .some (.runtime hline)

theorem Session.Shadows.perform (h : s.Shadows L vs vs' n n' W s')
    (hnatives : ∀ native ∈ s.natives, native.Faithful) (hch : ch.Alike (Paired L vs vs') L ch')
    (fuel : Nat) :
    Option.Rel (Step.Shadows L vs vs' n n') (s.perform fun σ => ch.watched idle σ fuel)
      (s'.perform fun σ => ch'.watched idle σ fuel) := by
  have hlock := hch.lockstep (F := fun _ => False) Lockstep.watches_idle
    (h.tabled.tables h.tabled') h.natives (fun native hnative => (hnatives native hnative).agrees)
    fuel h.good
  have hout := (hlock _ _ h.machines).resolve_left (by rintro ⟨_, _, hF⟩; exact hF)
  unfold Session.perform
  dsimp only
  generalize ch.watched idle s.setting fuel s.machine = x at hout
  generalize ch'.watched idle s'.setting fuel s'.machine = x' at hout
  cases hout with
  | ok hle hgood hstep hv =>
      obtain ⟨rfl, hvalid⟩ := hv
      refine .some ⟨rfl, .nil, rfl, ?_, hstep.output,
        ⟨_, hgood, hstep, h.natives, h.tabled.of_machine _, h.tabled'.of_machine _⟩⟩
      rintro v ⟨rfl⟩
      dsimp only
      rw [hstep.left, hstep.right]
      exact hgood.sameTexts (hvalid v rfl)
  | @error W' m m' f f' hle hgood hstep hfault =>
      have hreport := hfault.onLines
      dsimp only
      generalize Diagnostic.ofFault? f = d at hreport
      generalize Diagnostic.ofFault? f' = d' at hreport
      cases hreport with
      | none => exact .none
      | some hd =>
          exact .some ⟨rfl, .cons hd .nil, rfl, by rintro _ ⟨⟩, hstep.output,
            ⟨_, hgood, hstep, h.natives, h.tabled.of_machine _, h.tabled'.of_machine _⟩⟩

theorem Session.Tabled.mono (h : s.Tabled vs n) (hle : n ≤ n') : s.Tabled vs n' :=
  { h with nextId := Nat.le_trans h.nextId hle }

theorem movedLine_eq {δ : Move} (h : δ.lines = 0) : MovedLine Eq δ = Eq := by
  funext l l'
  refine propext ⟨?_, ?_⟩
  · rintro ⟨l₀, rfl, rfl⟩
    rw [h, Nat.add_zero]
  · rintro rfl
    exact ⟨l, rfl, by rw [h, Nat.add_zero]⟩

/-- What runs like itself runs like itself in another place. -/
theorem Scope.Alike.paired {N : String → String → Prop} {p : Pair}
    (h : Alike (Placed (· ∈ vs) N) Eq Γ p) (hN : ∀ name name', N name name' → name' = name)
    (δ : Move) :
    Alike (Paired (MovedLine Eq δ) vs (vs.map (Visit.moved δ))) (MovedLine Eq δ) Γ (p.moved δ) := by
  refine (h.moved δ).mono ?_
  rintro Γ ref _ ⟨ref₀, ⟨hid, hline, hname, hnames, hvisited⟩, rfl⟩
  have hlexeme : ref₀.name.lexeme = ref.name.lexeme := hN _ _ hnames
  refine ⟨⟨_, hline, rfl⟩, hlexeme, hname.symm.trans hlexeme, hvisited, _,
    List.mem_map_of_mem hvisited, ?_, hlexeme.symm, rfl⟩
  exact congrArg (· + δ.shift) hid.symm

theorem maps_same {name name' : String} (h : Renaming.Maps ⟨[], "", ""⟩ name name') :
    name' = name := by
  rcases h with h | ⟨h, h'⟩
  · exact h
  · exact h'.trans h.symm

theorem Scope.Placed.paired (h : Placed (· ∈ vs) (Renaming.Maps ⟨[], "", ""⟩) Γ ref ref') :
    Paired Eq vs vs Γ ref ref' := by
  have hlexeme := maps_same h.names
  exact ⟨h.line, hlexeme, h.name.symm.trans hlexeme, h.visited, _, h.visited, h.id.symm,
    hlexeme.symm, rfl⟩

/-- An accepted chunk runs like itself. -/
theorem Chunk.alike_self {low high : Nat} (hspelled : ch.Spelled)
    (hnumbered : Numbered low high ch.visits) (haccepted : ch.Accepted) :
    ch.Alike (Placed (· ∈ ch.visits) (Renaming.Maps ⟨[], "", ""⟩)) Eq ch := by
  have htable : ∀ v ∈ ch.visits, ch.findings.distances.lookup v.ref.id = v.distance? := by
    rw [ch.distances_eq]
    exact lookup_entries hnumbered.distinct
  have hvariables : Renaming.OfVariables ⟨ch.findings.distances, "", ""⟩ :=
    ⟨ofVariables_same.name, ofVariables_same.fresh⟩
  exact (ch.renames_self.resolved hvariables htable hspelled haccepted).1

/-- A session answers a request for a chunk that is accepted as the other one does. -/
theorem Session.Shadows.handle (h : s.Shadows Eq vs vs' n n W s')
    (hnatives : ∀ native ∈ s.natives, native.Faithful) (hsize : n + r.text.length < UInt64.size)
    (hch : r.chunk? s.nextId = some ch) (haccepted : ch.Accepted) :
    Option.Rel (Step.Shadows Eq (vs ++ r.visits s.nextId) (vs' ++ r.visits s'.nextId)
      (n + r.text.length) (n + r.text.length)) (s.handle r) (s'.handle r) := by
  have hch' := Request.chunk_moved hch s'.nextId
  generalize hδ : (⟨s'.nextId - s.nextId, 0⟩ : Move) = δ at hch'
  have hlines : δ.lines = 0 := by rw [← hδ]
  have haccepted' : (ch.moved δ).Accepted := Chunk.accepted_moved.mpr haccepted
  obtain ⟨hspelled, hnumbered⟩ := Request.chunk_read hch
    (Nat.lt_of_le_of_lt (Nat.add_le_add_right h.tabled.nextId _) hsize)
  have hself := Chunk.alike_self hspelled hnumbered haccepted
  have halike : ch.Alike (Paired Eq (vs ++ r.visits s.nextId) (vs' ++ r.visits s'.nextId)) Eq
      (ch.moved δ) := by
    have hmono : ∀ Γ ref ref', Paired Eq ch.visits (ch.visits.map (Visit.moved δ)) Γ ref ref' →
        Paired Eq (vs ++ r.visits s.nextId) (vs' ++ r.visits s'.nextId) Γ ref ref' := by
      intro Γ ref ref' hpaired
      rw [Request.visits_of_accepted hch haccepted, Request.visits_of_accepted hch' haccepted',
        Chunk.visits_moved]
      exact hpaired.mono (fun _ hv => List.mem_append_right _ hv)
        fun _ hv => List.mem_append_right _ hv
    cases ch with
    | program ss =>
        have hpaired := Scope.Alike.paired hself (fun _ _ => maps_same) δ
        rw [movedLine_eq hlines] at hpaired
        exact hpaired.mono hmono
    | expression e =>
        have hpaired := Scope.Alike.paired hself (fun _ _ => maps_same) δ
        rw [movedLine_eq hlines] at hpaired
        exact hpaired.mono hmono
  have hentered : (s.entered r).Shadows Eq (vs ++ r.visits s.nextId) (vs' ++ r.visits s'.nextId)
      (n + r.text.length) (n + r.text.length) W (s'.entered r) := by
    refine ⟨h.good.imp fun _ _ _ hpaired => ?_, h.machines, h.natives, h.tabled.enter r hsize,
      h.tabled'.enter r hsize⟩
    exact hpaired.mono (fun _ hv => List.mem_append_left _ hv) fun _ hv => List.mem_append_left _ hv
  rw [Session.handle_of_chunk hch, Session.handle_of_chunk hch', if_pos haccepted, if_pos haccepted']
  exact hentered.perform hnatives halike r.fuel

/-- A request that only one session reads, and does not run, leaves the other one behind. -/
theorem Session.Shadows.enter_left (h : s.Shadows L vs vs' n n' W s')
    (hsize : n + r.text.length < UInt64.size) :
    (s.entered r).Shadows L (vs ++ r.visits s.nextId) vs' (n + r.text.length) n' W s' := by
  refine ⟨h.good.imp fun _ _ _ hpaired => ?_, h.machines, h.natives, h.tabled.enter r hsize,
    h.tabled'⟩
  exact hpaired.mono (fun _ hv => List.mem_append_left _ hv) fun _ hv => hv

/-- Code that is on the heap may be on its lines in another sense, too. -/
theorem Session.Shadows.onLines (h : s.Shadows Eq vs vs' n n' W s')
    (hlines : ∀ f < s.machine.heap.functions.size,
      ∀ l ∈ (s.machine.heap.function f).decl.lines, L l l) : s.Shadows L vs vs' n n' W s' := by
  refine { h with good := h.good.map fun f hf Γ hcode => ?_ }
  rw [← h.machines.left] at hf
  refine hcode.imp (fun Γ ref ref' href hl => ?_) (fun l l' hl hmem => hl ▸ hlines f hf l hmem) ?_
  · exact href.imp (fun hl' => hl' ▸ hlines f hf _ hl) (fun _ hv => hv) fun _ hv => hv
  · rw [← h.machines.left]
    exact fun _ hl => hl

/-- A session is its own shadow. -/
theorem History.shadows {natives : List Native} {output : Output}
    (hnatives : ∀ native ∈ natives, native.Faithful) (h : History natives output s vs n)
    (hsize : n < UInt64.size) : ∃ W, s.Shadows Eq vs vs n n W s := by
  obtain ⟨W, hself⟩ := h.inStep ofVariables_same hnatives hsize
  exact ⟨W, hself.good.imp fun _ _ _ => Scope.Placed.paired, hself.machines, rfl, hself.tabled,
    hself.tabled⟩

end

end LoxLang
