import LoxLang.Proofs.Scope.Stations
import LoxLang.Proofs.Session.Identities
import LoxLang.Proofs.Session.Jobs

/-!
The stations of a session. All statements that a session comes to stand where the walk has come to them
in one of the trees that it has read, and its table has the address of each of their uses.
-/

namespace LoxLang

open Scope Eval

namespace Chunk

/-- The uses of a chunk, which is at the top level. -/
def uses : Chunk → List Use
  | program ss => usesStmts ss []
  | expression e => e.uses []

/-- The statements of a chunk, each with the context in which the walk comes to it. -/
def stations : Chunk → List Station
  | program ss => stationsStmts ss .initial
  | expression e => e.stations .initial

variable {ch : Chunk} {us : List Use} {ws : List Station}

theorem references_uses (ch : Chunk) : ch.uses.map Use.ref = ch.references := by
  cases ch with
  | program ss => exact references_usesStmts ss []
  | expression e => exact e.references_uses []

theorem distances_uses (ch : Chunk) :
    ch.findings.distances = (ch.uses.filterMap Use.entry?).reverse := by
  rw [distances_eq]
  apply congrArg List.reverse
  cases ch with
  | program ss => exact entries_usesStmts ss [] .top knows_initial
  | expression e => exact e.entries_uses [] knows_initial

theorem obeys_within (hspelled : ch.Spelled) (hus : ch.uses.Sublist us) (hws : ch.stations ⊆ ws) :
    ch.Obeys (.within us ws) := by
  cases ch with
  | program ss =>
      exact obeysStmts_within ss .none hspelled knows_initial .top .top hus hws
  | expression e => exact e.obeys_within .none hspelled knows_initial hus hws

end Chunk

namespace Asked

variable (a : Asked)

/-- The uses of the tree that was to be run. -/
def uses : List Use :=
  match a.request.chunk? a.firstId with
  | some ch => ch.uses
  | none => []

def stations : List Station :=
  match a.request.chunk? a.firstId with
  | some ch => ch.stations
  | none => []

variable {a}

theorem uses_of_chunk {ch : Chunk} (h : a.request.chunk? a.firstId = some ch) : a.uses = ch.uses := by
  rw [uses, h]

theorem stations_of_chunk {ch : Chunk} (h : a.request.chunk? a.firstId = some ch) :
    a.stations = ch.stations := by
  rw [stations, h]

theorem references_uses (a : Asked) : (a.uses.map Use.ref).Sublist a.references := by
  unfold uses references
  cases hch : a.request.chunk? a.firstId with
  | none => exact List.nil_sublist _
  | some ch =>
      rw [(Request.tree_of_chunk hch).2]
      exact ch.references_uses ▸ List.Sublist.refl _

/-- The walk over a tree has entered the addresses of its uses. -/
theorem lookup_uses (hdistinct : (a.references.map Reference.id).Nodup) :
    ∀ u ∈ a.uses, a.distances.lookup u.ref.id = u.address? := by
  intro u hu
  have hids : (a.uses.map fun u => u.ref.id).Nodup := by
    have hsub := a.references_uses.map Reference.id
    rw [List.map_map] at hsub
    exact hdistinct.sublist hsub
  unfold uses at hu hids
  unfold distances Request.distances
  cases hch : a.request.chunk? a.firstId with
  | none =>
      rw [hch] at hu
      cases hu
  | some ch =>
      rw [hch] at hu hids
      rw [Option.map_some, Option.getD_some, ch.distances_uses]
      exact lookup_filterMap (f := fun u : Use => u.ref.id) hids u hu

end Asked

section

variable {natives : List Native} {output : Output} {s : Session} {past : List Asked} {r : Request}
  {us : List Use} {ws : List Station}

/-- All that a session has read has identities of its own, and its table has all of their addresses. -/
theorem Session.Owns.lookup_uses (h : s.Owns past) :
    (((past.flatMap Asked.uses).map fun u => u.ref.id).Nodup ∧
      ∀ u ∈ past.flatMap Asked.uses, u.ref.id < s.nextId ∧
        s.distances.lookup u.ref.id = u.address?) := by
  constructor
  · have hsub : ((past.flatMap Asked.uses).map Use.ref).Sublist (past.flatMap Asked.references) := by
      rw [List.map_flatMap]
      clear h
      induction past with
      | nil => exact .slnil
      | cons a past ih => exact (a.references_uses).append ih
    have hids := hsub.map Reference.id
    rw [List.map_map] at hids
    exact h.distinct.sublist hids
  · intro u hu
    obtain ⟨a, ha, hu⟩ := List.mem_flatMap.mp hu
    have href := a.references_uses.subset (List.mem_map_of_mem hu)
    have hdistinct : (a.references.map Reference.id).Nodup := by
      have hsub := (List.sublist_flatten_of_mem (List.mem_map_of_mem (f := Asked.references) ha)).map
        Reference.id
      exact h.distinct.sublist hsub
    exact ⟨h.used a ha _ href, (h.found a ha _ href).trans (Asked.lookup_uses hdistinct u hu)⟩

/-- The machine of a session may be given trees whose statements stand where the walk has come to
them. -/
theorem Reached.ready (hnatives : ∀ native ∈ natives, native.Conserves)
    (h : Reached natives output s past) (hus : (past.flatMap Asked.uses).Sublist us)
    (hws : past.flatMap Asked.stations ⊆ ws) : s.machine.Ready (.within us ws) := by
  induction h with
  | start => exact Machine.ready_initial _ natives output
  | @step s past r t h hroom hstep ih =>
      rw [List.flatMap_append, List.flatMap_singleton] at hus hws
      obtain ⟨hold, hnew⟩ := List.append_subset.mp hws
      have hready := ih ((List.sublist_append_left _ _).trans hus) hold
      rw [Session.machine_of_handle hstep]
      refine (hready.after (h.natives_eq ▸ hnatives) fun j hj => ?_).1
      obtain ⟨ch, hch, -, rfl⟩ := Session.job?_eq_some (Option.mem_toList.mp hj)
      rw [Asked.stations_of_chunk hch] at hnew
      rw [Asked.uses_of_chunk hch] at hus
      exact Chunk.obeys_within (hroom.chunk_read hch).1 ((List.sublist_append_right _ _).trans hus) hnew

/-- What a session comes to stands where the walk has come to it. -/
theorem Reached.admits (hnatives : ∀ native ∈ natives, native.Conserves)
    (h : Reached natives output s past) (hroom : r.Room s.nextId) {ch : Chunk}
    (hch : r.chunk? s.nextId = some ch) {node : Node} {m : Machine}
    (hreach : Reaches (fun see => ch.watched see (s.entered r).setting r.fuel) s.machine node m) :
    (Law.within ((past ++ [(⟨s.nextId, r⟩ : Asked)]).flatMap Asked.uses)
      ((past ++ [(⟨s.nextId, r⟩ : Asked)]).flatMap Asked.stations)).Admits node m := by
  have hfirst : (past ++ [(⟨s.nextId, r⟩ : Asked)]).flatMap Asked.uses =
      past.flatMap Asked.uses ++ ch.uses := by
    rw [List.flatMap_append, List.flatMap_singleton, Asked.uses_of_chunk hch]
  have hsecond : (past ++ [(⟨s.nextId, r⟩ : Asked)]).flatMap Asked.stations =
      past.flatMap Asked.stations ++ ch.stations := by
    rw [List.flatMap_append, List.flatMap_singleton, Asked.stations_of_chunk hch]
  rw [hfirst, hsecond]
  have hready := h.ready hnatives (List.sublist_append_left _ ch.uses)
    (List.subset_append_left _ ch.stations)
  have hobeys : ch.Obeys (.within (past.flatMap Asked.uses ++ ch.uses)
      (past.flatMap Asked.stations ++ ch.stations)) :=
    Chunk.obeys_within (hroom.chunk_read hch).1 (List.sublist_append_right _ _)
      (List.subset_append_right _ _)
  exact (Upholds.reaches (Job.upholds (j := ⟨ch, (s.entered r).distances, r.fuel⟩)
    (h.natives_eq ▸ hnatives) hobeys hready) hreach).1

end

end LoxLang
