import LoxLang.Proofs.Session.Requests

/-!
Steps one after the other. A session takes the steps that a list of requests leads to, each one where
the step before it has left it. Steps change the table and the machine only.
-/

namespace LoxLang

open Scope

/-- A request, the session that is asked and the step that it takes. -/
structure Passage where
  before : Session
  request : Request
  step : Step Answer

/-- The steps that a session takes, unless the fuel is too little for one of them. -/
def Session.passages : List Request → Session → Option (List Passage)
  | [], _ => some []
  | r :: rest, s => do
    let t ← s.handle r
    let ps ← passages rest t.session
    return ⟨s, r, t⟩ :: ps

/-- The characters of requests. -/
def Request.characters : List Request → Nat
  | [] => 0
  | r :: rest => r.text.length + characters rest

namespace Session

variable {s : Session} {r : Request} {t : Step Answer}

theorem session_of_perform {action : Setting → Eval Answer} (h : s.perform action = some t) :
    ∃ m, t.session = { s with machine := m } := by
  rcases perform_cases h with ⟨_, m, -, rfl⟩ | ⟨_, m, _, -, -, rfl⟩ <;> exact ⟨m, rfl⟩

/-- A step changes a session that has read the request in its machine only. -/
theorem session_of_handle (h : s.handle r = some t) :
    ∃ m, t.session = { s.entered r with machine := m } := by
  cases hch : r.chunk? s.nextId with
  | none =>
      obtain ⟨status, reports, answer, -, -, hhandle⟩ := handle_of_none hch
      rw [hhandle s rfl] at h
      cases h
      exact ⟨_, rfl⟩
  | some ch =>
      rw [handle_of_chunk hch] at h
      split at h
      · exact session_of_perform h
      · cases h
        exact ⟨_, rfl⟩

theorem natives_of_handle (h : s.handle r = some t) : t.session.natives = s.natives := by
  obtain ⟨m, hsession⟩ := session_of_handle h
  rw [hsession]
  rfl

theorem distances_of_handle (h : s.handle r = some t) :
    t.session.distances = r.distances s.nextId ++ s.distances := by
  obtain ⟨m, hsession⟩ := session_of_handle h
  rw [hsession]
  rfl

end Session

end LoxLang
