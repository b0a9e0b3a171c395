import LoxLang.Proofs.Session.Shadow

/-!
Steps that leave no trace. A text with a static error, and a text that is only parsed, may stay in the
table and use up identities, but running what comes later finds nothing of them: without these steps all
others are answered alike.
-/

namespace LoxLang

open Scope Eval

def Request.isParse : Request → Bool
  | parse _ => true
  | _ => false

namespace Passage

/-- A step that is not only parsed and has no static error. -/
def Kept (p : Passage) : Prop :=
  p.request.isParse = false ∧ p.step.status ≠ .staticError

instance : DecidablePred Kept :=
  fun _ => inferInstanceAs (Decidable (_ ∧ _))

/-- What a step enters into the table. -/
def entries (p : Passage) : Distances :=
  p.request.distances p.before.nextId

/-- Two steps that are answered alike, and enter the same distances of references whose identities are
counted from the session's own. -/
structure Same (p p' : Passage) : Prop where
  request : p'.request = p.request
  status : p'.step.status = p.step.status
  reports : p'.step.reports = p.step.reports
  result : p'.step.result = p.step.result
  texts : ∀ v, p.step.result = some (.value v) →
    v.SameTexts p.step.session.machine.heap p'.step.session.machine.heap
  output : p'.step.session.machine.output = p.step.session.machine.output
  entries : p'.entries = movedDistances ⟨p'.before.nextId - p.before.nextId, 0⟩ p.entries
  table : p.step.session.distances = p.entries ++ p.before.distances
  table' : p'.step.session.distances = p'.entries ++ p'.before.distances

end Passage

section

variable {s s' : Session} {r : Request} {t : Step Answer}

/-- A chunk that is run has no static error. -/
theorem Session.status_of_perform {action : Setting → Eval Answer} (h : s.perform action = some t) :
    t.status ≠ .staticError := by
  rcases perform_cases h with ⟨_, _, -, rfl⟩ | ⟨_, _, _, -, -, rfl⟩ <;> simp

/-- A step either is kept, and then runs an accepted chunk, or it runs nothing. -/
theorem Session.kept_or_entered (h : s.handle r = some t) :
    (Passage.Kept ⟨s, r, t⟩ ∧ ∃ ch, r.chunk? s.nextId = some ch ∧ ch.Accepted) ∨
      ¬Passage.Kept ⟨s, r, t⟩ ∧ t.session = s.entered r := by
  cases hch : r.chunk? s.nextId with
  | none =>
      have hentered : t.session = s.entered r := by
        obtain ⟨status, reports, answer, -, -, hhandle⟩ := handle_of_none hch
        rw [hhandle s rfl] at h
        cases h
        rfl
      refine .inr ⟨?_, hentered⟩
      rintro ⟨hparse, hstatus⟩
      cases r with
      | run fuel text =>
          simp only [handle, run, whenRead, Option.map_eq_none_iff.mp hch] at h
          cases h
          exact hstatus rfl
      | evaluate fuel text =>
          simp only [handle, evaluate, whenRead, Option.map_eq_none_iff.mp hch] at h
          cases h
          exact hstatus rfl
      | parse text => cases hparse
  | some ch =>
      rw [handle_of_chunk hch] at h
      split at h
      case isTrue haccepted =>
        refine .inl ⟨⟨?_, status_of_perform h⟩, ch, rfl, haccepted⟩
        cases r with
        | parse => cases hch
        | _ => rfl
      case isFalse =>
        cases h
        exact .inr ⟨fun hkept => hkept.2 rfl, rfl⟩

/-- A step with a static error changes nothing of the machine: neither its heap nor its output. -/
theorem Session.machine_of_staticError (h : s.handle r = some t) (hstatus : t.status = .staticError) :
    t.session.machine = s.machine := by
  rcases kept_or_entered h with ⟨hkept, -⟩ | ⟨-, hsession⟩
  · exact absurd hstatus hkept.2
  · rw [hsession]
    rfl

/-- The entries of an accepted chunk are those of the chunk in another place. -/
theorem Request.distances_moved {i : Identity} {ch : Chunk} (hch : r.chunk? i = some ch)
    (j : Identity) : r.distances j = movedDistances ⟨j - i, 0⟩ (r.distances i) := by
  rw [distances, distances, chunk_moved hch j, hch]
  simp only [Option.map_some, Option.getD_some, Chunk.findings_moved]

variable {vs vs' : List Visit} {n : Nat} {W : World}

/-- The second session takes the steps of the first one that are kept. -/
theorem Session.Shadows.passages {rs : List Request} {ps : List Passage}
    (h : s.Shadows Eq vs vs' n n W s') (hnatives : ∀ native ∈ s.natives, native.Faithful)
    (hsize : n + Request.characters rs < UInt64.size) (hps : s.passages rs = some ps) :
    ∃ ps', s'.passages ((ps.filter (Passage.Kept ·)).map Passage.request) = some ps' ∧
      List.Forall₂ Passage.Same (ps.filter (Passage.Kept ·)) ps' := by
  induction rs generalizing s s' vs vs' n W ps with
  | nil =>
      cases hps
      exact ⟨[], rfl, .nil⟩
  | cons r rs ih =>
      rw [Request.characters, ← Nat.add_assoc] at hsize
      have hfirst := Nat.lt_of_le_of_lt (Nat.le_add_right ..) hsize
      obtain ⟨t, ht, hps⟩ := Option.bind_eq_some_iff.mp hps
      obtain ⟨rest, hrest, hps⟩ := Option.bind_eq_some_iff.mp hps
      cases hps
      have hfaithful : ∀ native ∈ t.session.natives, native.Faithful :=
        Session.natives_of_handle ht ▸ hnatives
      rcases Session.kept_or_entered ht with ⟨hkept, ch, hch, haccepted⟩ | ⟨hdropped, hsession⟩
      · have hstep := h.handle hnatives hfirst hch haccepted
        rw [ht] at hstep
        generalize ht' : s'.handle r = x' at hstep
        cases hstep with
        | @some t t' hshadows =>
            obtain ⟨W', hnext⟩ := hshadows.session
            obtain ⟨ps', hps', hsame⟩ := ih hnext hfaithful hsize hrest
            rw [List.filter_cons_of_pos (by simpa using hkept)]
            refine ⟨⟨s', r, t'⟩ :: ps', ?_, .cons ?_ hsame⟩
            · rw [List.map_cons, Session.passages, ht']
              simp only [Option.bind_eq_bind, Option.bind_some, hps']
              rfl
            · exact ⟨rfl, hshadows.status, hshadows.reports_eq, hshadows.result, hshadows.texts,
                hshadows.output, Request.distances_moved hch _, Session.distances_of_handle ht,
                Session.distances_of_handle ht'⟩
      · rw [List.filter_cons_of_neg (by simpa using hdropped)]
        have hnext := h.enter_left (r := r) hfirst
        rw [← hsession] at hnext
        have htabled' := hnext.tabled'.mono (Nat.le_add_right n r.text.length)
        exact ih { hnext with tabled' := htabled' } hfaithful hsize hrest

/-- Without the steps that are only parsed or have a static error, all others are answered alike and
enter the same distances, up to a shift of identities. A step with a static error changes nothing of the
machine. -/
theorem passages_without_rejected {natives : List Native} {output : Output}
    (hnatives : ∀ native ∈ natives, native.Faithful) (h : History natives output s vs n)
    {rs : List Request} (hsize : n + Request.characters rs < UInt64.size) {ps : List Passage}
    (hps : s.passages rs = some ps) :
    (∃ ps', s.passages ((ps.filter (Passage.Kept ·)).map Passage.request) = some ps' ∧
      List.Forall₂ Passage.Same (ps.filter (Passage.Kept ·)) ps') ∧
    ∀ s r t, Session.handle r s = some t → t.status = .staticError →
      t.session.machine = s.machine := by
  obtain ⟨W, hself⟩ := h.shadows hnatives (Nat.lt_of_le_of_lt (Nat.le_add_right ..) hsize)
  refine ⟨hself.passages (h.natives_eq ▸ hnatives) hsize hps, ?_⟩
  exact fun _ _ _ ht hstatus => Session.machine_of_staticError ht hstatus

/-- A program that is rejected before one that is not. -/
theorem passages_without_rejected_return :
    ∃ ps, (Session.initial [.clock 0] .unlimited).passages
        [.run 9 "\x7b a; return; \x7d", .run 9 "\x7b var a = nil; print a; \x7d"] = some ps ∧
      (ps.filter (Passage.Kept ·)).length = 1 ∧
      ∃ ps', (Session.initial [.clock 0] .unlimited).passages
          ((ps.filter (Passage.Kept ·)).map Passage.request) = some ps' ∧
        List.Forall₂ Passage.Same (ps.filter (Passage.Kept ·)) ps' := by
  have hrun : ((Session.initial [.clock 0] .unlimited).passages
      [.run 9 "\x7b a; return; \x7d", .run 9 "\x7b var a = nil; print a; \x7d"]).map
        (fun ps => (ps.filter (Passage.Kept ·)).length) = some 1 := by decide +kernel
  obtain ⟨ps, hps, hlength⟩ := Option.map_eq_some_iff.mp hrun
  exact ⟨ps, hps, hlength, (passages_without_rejected (Native.faithful_of_clock 0 _)
    (.start : History [.clock 0] .unlimited _ _ _) (by decide) hps).1⟩

end

end LoxLang
