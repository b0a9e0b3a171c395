import LoxLang.Proofs.Grammar.Identities
import LoxLang.Proofs.Session.Moments

/-!
Renaming the local variables of a chunk that a session runs. The renamed chunk is accepted like the
chunk itself and gets the same distances; and the session answers alike from then on, whatever it is
asked later.
-/

namespace LoxLang

open Scope Grammar

/-! ### Identities -/

/-- The identities that reading a chunk uses up. -/
def Chunk.identities : Chunk → Nat
  | program ss => identitiesStmts ss
  | expression e => e.identities

theorem Chunk.Renames.identities {r : Renaming} {ch ch' : Chunk} (h : ch.Renames r ch') :
    ch'.identities = ch.identities := by
  cases h with
  | program h => exact h.sameIdentities
  | expression h => exact h.sameIdentities

/-- The next identity behind a request is told by its chunk. -/
theorem Request.nextId_of_chunk {i : Identity} {r : Request} {ch : Chunk}
    (h : r.chunk? i = some ch) : Apart ch.identities i (r.nextId i) := by
  have hidentities := (r.derives_chunk h).2.identities
  cases ch <;> exact hidentities

/-! ### Answers -/

/-- Answers that tell two sessions apart by the name of a missing variable at most. -/
structure Step.SameAnswer (N : String → String → Prop) (t t' : Step Answer) : Prop where
  status : t'.status = t.status
  reports : List.Forall₂ (Diagnostic.Alike N) t.reports t'.reports
  result : t'.result = t.result
  texts : ∀ v, t.result = some (.value v) →
    v.SameTexts t.session.machine.heap t'.session.machine.heap
  output : t'.session.machine.output = t.session.machine.output
  distances : t'.session.distances = t.session.distances
  nextId : t'.session.nextId = t.session.nextId

theorem Step.Alike.sameAnswer {N : String → String → Prop} {vs : List Visit} {n : Nat}
    {t t' : Step Answer} (h : t.Alike N vs n t') : t.SameAnswer N t' := by
  obtain ⟨W, hsession⟩ := h.session
  exact ⟨h.status, h.reports, h.result, h.texts, h.output, hsession.distances, hsession.nextId⟩

/-- Steps that are answered alike, one by one. -/
def SameAnswers (N : String → String → Prop) : List Passage → List Passage → Prop :=
  List.Forall₂ fun p p' => p.step.SameAnswer N p'.step

section

variable {natives : List Native} {output : Output} {s s' : Session} {vs : List Visit} {n : Nat}
  {W : World} {r r' : Request} {ch ch' : Chunk} {name fresh : String}

/-- Steps that are alike are the first of steps that are alike. -/
theorem Session.passages_cons_alike {N : String → String → Prop} {rs : List Request}
    (hstep : Option.Rel (Step.Alike N vs n) (s.handle r) (s'.handle r'))
    (hrest : ∀ t t' : Step Answer, s.handle r = some t → t.Alike N vs n t' →
      Option.Rel (SameAnswers N) (t.session.passages rs) (t'.session.passages rs)) :
    Option.Rel (SameAnswers N) (s.passages (r :: rs)) (s'.passages (r' :: rs)) := by
  unfold Session.passages
  generalize hhandle : s.handle r = x at hstep
  generalize s'.handle r' = x' at hstep
  cases hstep with
  | none => exact .none
  | @some t t' halike =>
      have hpassages := hrest t t' hhandle halike
      dsimp only [Option.bind_eq_bind, Option.bind_some]
      generalize t.session.passages rs = y at hpassages
      generalize t'.session.passages rs = y' at hpassages
      cases hpassages with
      | none => exact .none
      | some hts => exact .some (.cons halike.sameAnswer hts)

/-- Sessions in lockstep answer alike whatever they are asked. -/
theorem Session.InStep.passages (hnames : (⟨[], name, fresh⟩ : Renaming).OfVariables)
    {rs : List Request} (h : s.InStep (Renaming.Maps ⟨[], name, fresh⟩) vs n W s')
    (hnatives : ∀ native ∈ s.natives, native.Faithful)
    (hsize : n + Request.characters rs < UInt64.size) :
    Option.Rel (SameAnswers (Renaming.Maps ⟨[], name, fresh⟩)) (s.passages rs) (s'.passages rs) := by
  induction rs generalizing s s' vs n W with
  | nil => exact .some .nil
  | cons r rs ih =>
      rw [Request.characters, ← Nat.add_assoc] at hsize
      have hfirst := Nat.lt_of_le_of_lt (Nat.le_add_right ..) hsize
      refine Session.passages_cons_alike (h.handle hnames hnatives hfirst (.same r)) ?_
      intro t t' ht halike
      obtain ⟨W', hsession⟩ := halike.session
      exact ih hsession (Session.natives_of_handle ht ▸ hnatives) hsize

/-- Local variables may be renamed. Where a session is asked to run a chunk that has no static error,
and is asked instead to run the chunk with a local variable under a name that is not in use there, the
renamed chunk has no static error either and enters the same distances; both ways the answers are the
same, and so are those to all later requests, but for the variable's name in a report that it is
missing. -/
theorem answers_renamed (hnatives : ∀ native ∈ natives, native.Faithful)
    (h : History natives output s vs n) (hch : r.chunk? s.nextId = some ch)
    (haccepted : ch.Accepted) (hname : ¬Reserved name) (hfresh : ¬Reserved fresh)
    (hrenames : ch.Renames ⟨ch.findings.distances, name, fresh⟩ ch')
    (hch' : r'.chunk? s.nextId = some ch') (hfuel : r'.fuel = r.fuel) (later : List Request)
    (hsize : n + Request.characters (r :: later) < UInt64.size) :
    ch'.Accepted ∧ ch'.findings.distances = ch.findings.distances ∧
      Option.Rel (SameAnswers (Renaming.Maps ⟨[], name, fresh⟩))
        (s.passages (r :: later)) (s.passages (r' :: later)) := by
  have hnames : (⟨[], name, fresh⟩ : Renaming).OfVariables := ⟨hname, hfresh⟩
  rw [Request.characters, ← Nat.add_assoc] at hsize
  have hfirst := Nat.lt_of_le_of_lt (Nat.le_add_right ..) hsize
  have hfaithful : ∀ native ∈ s.natives, native.Faithful := h.natives_eq ▸ hnatives
  obtain ⟨W, hself⟩ := h.inStep hnames hnatives (Nat.lt_of_le_of_lt (Nat.le_add_right ..) hfirst)
  have hid : r'.nextId s.nextId = r.nextId s.nextId := by
    have hcount := Request.nextId_of_chunk hch
    have hcount' := Request.nextId_of_chunk hch'
    rw [hrenames.identities] at hcount'
    exact Eq.trans hcount' (Eq.symm hcount)
  have hsize' : s.nextId.toNat + r.text.length < UInt64.size :=
    Nat.lt_of_le_of_lt (Nat.add_le_add_right hself.tabled.nextId _) hfirst
  obtain ⟨hspelled, hnumbered⟩ := r.chunk_read hch hsize'
  have htable : ∀ v ∈ ch.visits, ch.findings.distances.lookup v.ref.id = v.distance? := by
    rw [ch.distances_eq]
    exact lookup_entries hnumbered.distinct
  obtain ⟨-, haccepted', hdistances⟩ :=
    hrenames.resolved (r := ⟨ch.findings.distances, name, fresh⟩) ⟨hname, hfresh⟩ htable hspelled haccepted
  refine ⟨haccepted', hdistances, ?_⟩
  have hstep := hself.handle hnames hfaithful hfirst (.renamed hch haccepted hch' hid hfuel hrenames)
  refine Session.passages_cons_alike hstep fun t t' ht halike => ?_
  obtain ⟨W', hsession⟩ := halike.session
  exact hsession.passages hnames (Session.natives_of_handle ht ▸ hfaithful) hsize

/-- A block with one variable, of a given name. -/
def Chunk.oneVariable (name : String) : Chunk :=
  .program [.block [.var ⟨.identifier, name, 1⟩ (some (.literal .nil)),
    .print (.ident ⟨0, ⟨.identifier, name, 1⟩⟩)]]

theorem answers_renamed_block :
    ∃ ts, (Session.initial [.clock 0] .unlimited).passages
        [.run 9 "\x7b var a = nil; print a; \x7d", .evaluate 9 "1"] = some ts ∧
      ∃ ts', (Session.initial [.clock 0] .unlimited).passages
        [.run 9 "\x7b var b = nil; print b; \x7d", .evaluate 9 "1"] = some ts' ∧
      SameAnswers (Renaming.Maps ⟨[], "a", "b"⟩) ts ts' := by
  have hch : Request.chunk? 0 (.run 9 "\x7b var a = nil; print a; \x7d") =
      some (.oneVariable "a") := by with_unfolding_all rfl
  have hch' : Request.chunk? 0 (.run 9 "\x7b var b = nil; print b; \x7d") =
      some (.oneVariable "b") := by with_unfolding_all rfl
  have hrenames : (Chunk.oneVariable "a").Renames ⟨[(0, 0)], "a", "b"⟩ (.oneVariable "b") := by
    refine .program (.moreStmts (.block (?_ : Renaming.Renames _ [true] _)) .noStmts)
    exact .moreStmts (.setVar (fun _ => by decide) .literal)
      (.moreStmts (.print (.ident fun _ => by decide)) .noStmts)
  have hrun : ((Session.initial [.clock 0] .unlimited).passages
      [.run 9 "\x7b var a = nil; print a; \x7d", .evaluate 9 "1"]).isSome = true := by
    decide +kernel
  have hrel := (answers_renamed (Native.faithful_of_clock 0 _)
    (.start : History [.clock 0] .unlimited _ _ _) hch (by decide)
    (by simp [Reserved]) (by simp [Reserved]) hrenames hch' rfl [.evaluate 9 "1"] (by decide)).2.2
  obtain ⟨ts, hts⟩ := Option.isSome_iff_exists.mp hrun
  rw [hts] at hrel
  generalize Session.passages _ _ = ts' at hrel ⊢
  cases hrel with
  | some halike => exact ⟨ts, hts, _, rfl, halike⟩

end

end LoxLang
