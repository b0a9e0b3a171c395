import LoxLang.Proofs.Session.Moments

/-!
The identities of references. The parser gives the references of a tree identities that are different
and counted on from the first that is free; a session goes on counting where the step before has left
off, however that step ended. So no two references that a session has ever read have the same identity,
and what the table says of a reference is what the walk over its own tree has entered, at every later
moment.

Identities are words. What is said of a session holds as long as it has not counted past the last of
them, and is false behind it: the next reference would have the identity of an old one.
-/

namespace LoxLang

open Scope Grammar Eval

/-! ### One tree -/

/-- References as the parser numbers them, from one identity up to another. -/
structure Grammar.Spread (limit : Nat) (i j : Identity) (refs : List Reference) : Prop where
  distinct : (refs.map Reference.id).Nodup
  counted : ∃ n ≤ limit, j = i + .ofNat n ∧ ∀ ref ∈ refs, ∃ k < n, ref.id = i + .ofNat k
  /-- Unless counting has started again at zero. -/
  between : i ≤ j → ∀ ref ∈ refs, i ≤ ref.id ∧ ref.id < j

theorem Grammar.Derives.spread {φ : Phrase} {s t : Input} (h : Derives φ s t)
    (hlength : s.tokens.length < UInt64.size) :
    Spread s.tokens.length s.nextId t.nextId φ.references := by
  have hcount := h.identities_le
  constructor
  · exact h.counted.distinct (by omega)
  · exact ⟨φ.identities, by omega, h.identities, fun ref href => h.counted.mem href⟩
  · exact h.counted.between h.identities (by omega)

/-! ### Many trees -/

def Chunk.references : Chunk → List Reference
  | program ss => referencesStmts ss
  | expression e => e.references

/-- Something that a session was asked, and the first identity that was free then. -/
structure Asked where
  firstId : Identity
  request : Request

namespace Asked

variable (a : Asked)

/-- The references of the tree that was read, if one was. -/
def references : List Reference :=
  match a.request.tree? a.firstId with
  | some ch => ch.references
  | none => []

/-- What the walk over the tree entered, if it was walked. -/
def distances : Distances :=
  a.request.distances a.firstId

/-- Where the walk bound references, if the tree was run. -/
def visits : List Visit :=
  a.request.visits a.firstId

end Asked

/-- The sessions that a host can come to without counting past the last identity, with all that they
were asked. How a step ends makes no difference. -/
inductive Reached (natives : List Native) (output : Output) : Session → List Asked → Prop
  | start : Reached natives output (.initial natives output) []
  | step {s : Session} {past : List Asked} {r : Request} {t : Step Answer}
    (h : Reached natives output s past) (hroom : r.Room s.nextId) (hstep : s.handle r = some t) :
    Reached natives output t.session (past ++ [⟨s.nextId, r⟩])

section

variable {natives : List Native} {output : Output} {s : Session} {past : List Asked} {r : Request}
  {i : Identity}

theorem Request.Room.between (hroom : r.Room i) :
    ∀ ref ∈ (⟨i, r⟩ : Asked).references, i ≤ ref.id ∧ ref.id < r.nextId i := by
  intro ref href
  unfold Asked.references at href
  split at href
  case h_1 ch htree =>
    have hspread := (Request.derives_tree htree).spread hroom.tokens
    cases ch <;> exact hspread.between hroom.grows ref href
  case h_2 => cases href

theorem Request.Room.distinct (hroom : r.Room i) :
    ((⟨i, r⟩ : Asked).references.map Reference.id).Nodup := by
  unfold Asked.references
  split
  case h_1 ch htree =>
    have hspread := (Request.derives_tree htree).spread hroom.tokens
    cases ch <;> exact hspread.distinct
  case h_2 => exact .nil

/-- The visits of a tree are of its references. -/
theorem Asked.reference_of_visit {a : Asked} {v : Visit} (hv : v ∈ a.visits) :
    v.ref ∈ a.references := by
  obtain ⟨ch, hch, -, hv⟩ := Request.visits_subset hv
  have hmem := List.mem_map_of_mem (f := Visit.ref) hv
  rw [references, (Request.tree_of_chunk hch).2]
  cases ch with
  | program ss => exact (visitsStmts_sublist ss _ _).subset hmem
  | expression e => exact (e.visits_sublist _ _).subset hmem

/-- A session knows what it was asked: all references that it has read have identities of their own,
which it has used up, and its table says of each what the walk over its tree has entered. -/
structure Session.Owns (s : Session) (past : List Asked) : Prop where
  distinct : ((past.flatMap Asked.references).map Reference.id).Nodup
  used : ∀ a ∈ past, ∀ ref ∈ a.references, ref.id < s.nextId
  entries : ∀ p ∈ s.distances, p.1 < s.nextId
  found : ∀ a ∈ past, ∀ ref ∈ a.references, s.distances.lookup ref.id = a.distances.lookup ref.id

theorem Session.owns_initial : (Session.initial natives output).Owns [] :=
  ⟨.nil, nofun, nofun, nofun⟩

/-- Reading a request uses new identities only, so that nothing in the table is hidden or supplied. -/
theorem Session.Owns.enter (h : s.Owns past) (hroom : r.Room s.nextId) :
    (s.entered r).Owns (past ++ [⟨s.nextId, r⟩]) := by
  have hnew := hroom.between
  have hentered : ∀ p ∈ r.distances s.nextId, s.nextId ≤ p.1 ∧ p.1 < r.nextId s.nextId := by
    intro p hp
    rw [UInt64.le_iff_toNat_le, UInt64.lt_iff_toNat_lt]
    exact Request.distances_range hroom p hp
  constructor
  case distinct =>
    rw [List.flatMap_append, List.flatMap_singleton, List.map_append, List.nodup_append]
    refine ⟨h.distinct, hroom.distinct, ?_⟩
    intro id hid id' hid' heq
    obtain ⟨ref, href, rfl⟩ := List.mem_map.mp hid
    obtain ⟨ref', href', rfl⟩ := List.mem_map.mp hid'
    obtain ⟨a, ha, href⟩ := List.mem_flatMap.mp href
    have hold := h.used a ha ref href
    rw [heq] at hold
    exact UInt64.lt_irrefl _ (UInt64.lt_of_lt_of_le hold (hnew ref' href').1)
  case used =>
    intro a ha ref href
    change ref.id < r.nextId s.nextId
    rcases List.mem_append.mp ha with ha | ha
    · exact UInt64.lt_of_lt_of_le (h.used a ha ref href) hroom.grows
    · cases List.mem_singleton.mp ha
      exact (hnew ref href).2
  case entries =>
    intro p hp
    change p.1 < r.nextId s.nextId
    rcases List.mem_append.mp hp with hp | hp
    · exact (hentered p hp).2
    · exact UInt64.lt_of_lt_of_le (h.entries p hp) hroom.grows
  case found =>
    intro a ha ref href
    change (r.distances s.nextId ++ s.distances).lookup ref.id = _
    rw [List.lookup_append]
    rcases List.mem_append.mp ha with ha | ha
    · have hmissing : (r.distances s.nextId).lookup ref.id = none := by
        apply lookup_of_not_mem
        intro p hp heq
        have hlow := (hentered p hp).1
        rw [heq] at hlow
        exact UInt64.lt_irrefl _ (UInt64.lt_of_lt_of_le (h.used a ha ref href) hlow)
      rw [hmissing, Option.none_or, h.found a ha ref href]
    · cases List.mem_singleton.mp ha
      have hmissing : s.distances.lookup ref.id = none := by
        apply lookup_of_not_mem
        intro p hp heq
        have hhigh := h.entries p hp
        rw [heq] at hhigh
        exact UInt64.lt_irrefl _ (UInt64.lt_of_lt_of_le hhigh (hnew ref href).1)
      rw [hmissing, Option.or_none]
      rfl

theorem Reached.owns (h : Reached natives output s past) : s.Owns past := by
  induction h with
  | start => exact Session.owns_initial
  | step _ hroom hstep ih =>
      obtain ⟨m, hsession⟩ := Session.session_of_handle hstep
      obtain ⟨hdistinct, hused, hentries, hfound⟩ := ih.enter hroom
      rw [hsession]
      exact ⟨hdistinct, hused, hentries, hfound⟩

theorem Reached.natives_eq (h : Reached natives output s past) : s.natives = natives := by
  induction h with
  | start => rfl
  | step _ _ hstep ih => exact (Session.natives_of_handle hstep).trans ih

/-- A session that has not run out of identities is in lockstep with itself. -/
theorem Reached.inStep (hnatives : ∀ native ∈ natives, native.Faithful)
    (h : Reached natives output s past) :
    ∃ n W, s.InStep (Renaming.Maps ⟨[], "", ""⟩) (past.flatMap Asked.visits) n W s := by
  induction h with
  | start => exact ⟨0, _, Session.inStep_initial _ natives output⟩
  | @step s past r t h hroom hstep ih =>
      obtain ⟨n, W, hself⟩ := ih
      have hlock := hself.answer ofVariables_same (h.natives_eq ▸ hnatives) hroom (.same r)
      rw [hstep] at hlock
      cases hlock with
      | some halike =>
          obtain ⟨W', hsession⟩ := halike.session
          rw [List.flatMap_append, List.flatMap_singleton]
          exact ⟨_, W', hsession⟩

/-- Evaluation comes to references of trees that the session has read only, and finds for each what
the walk entered at its own place. -/
theorem Reached.reaches (hnatives : ∀ native ∈ natives, native.Faithful)
    (h : Reached natives output s past) (hroom : r.Room s.nextId) {ch : Chunk}
    (hch : r.chunk? s.nextId = some ch) (haccepted : ch.Accepted) {node : Node} {m : Machine}
    {ref : Reference} (href : node.reference? = some ref)
    (hreach : Reaches (fun see => ch.watched see (s.entered r).setting r.fuel) s.machine node m) :
    ∃ a ∈ past ++ [⟨s.nextId, r⟩], ref ∈ a.references ∧ ∃ v ∈ a.visits, v.ref = ref ∧
      (s.entered r).distances.lookup ref.id = v.distance? := by
  obtain ⟨n, W, hself⟩ := h.inStep hnatives
  obtain ⟨hentered, halike⟩ := hself.runs ofVariables_same hroom hch haccepted
  have hfaithful : ∀ native ∈ (s.entered r).natives, native.Faithful := h.natives_eq ▸ hnatives
  obtain ⟨v, hv, hresolves, -⟩ := hentered.resolves hfaithful halike r.fuel href hreach
  have hvisits : v ∈ (past ++ [(⟨s.nextId, r⟩ : Asked)]).flatMap Asked.visits := by
    rwa [List.flatMap_append, List.flatMap_singleton]
  obtain ⟨a, ha, hv⟩ := List.mem_flatMap.mp hvisits
  have hown := Asked.reference_of_visit hv
  rw [hresolves.reference] at hown
  refine ⟨a, ha, hown, v, hv, hresolves.reference, ?_⟩
  rw [Visit.distance?, hresolves.reference]
  exact hresolves.entry

end

/-- The references of a tree that the parser reads have different identities, which are counted on from
the first and lie between it and the next one unless counting starts again at zero. In a session that
has not come to this, no two references of all the trees that were ever read have one identity, the
table says at any later time of each reference what the walk over its own tree entered, and what
evaluation comes to is the reference of a tree that was run and is looked up as the walk bound it
there. -/
theorem references_never_collide :
    (∀ tokens i, tokens.length < UInt64.size →
      (∀ ss j, parseProgram tokens i = ⟨.ok ss, j⟩ →
        Spread tokens.length i j (referencesStmts ss)) ∧
      ∀ e j, parseExpression tokens i = ⟨.ok e, j⟩ → Spread tokens.length i j e.references) ∧
    ∀ natives output s past r, Reached natives output s past → r.Room s.nextId →
      (((past ++ [(⟨s.nextId, r⟩ : Asked)]).flatMap Asked.references).map Reference.id).Nodup ∧
      (∀ a ∈ past ++ [⟨s.nextId, r⟩], ∀ ref ∈ a.references,
        (s.entered r).distances.lookup ref.id = a.distances.lookup ref.id) ∧
      ((∀ native ∈ natives, native.Faithful) →
        ∀ ch, r.chunk? s.nextId = some ch → ch.Accepted → ∀ node m ref, node.reference? = some ref →
          Reaches (fun see => ch.watched see (s.entered r).setting r.fuel) s.machine node m →
            ∃ a ∈ past ++ [⟨s.nextId, r⟩], ref ∈ a.references ∧ ∃ v ∈ a.visits, v.ref = ref ∧
              (s.entered r).distances.lookup ref.id = v.distance?) := by
  have hread : ∀ (tokens : List Token) (i : Identity) {φ : Phrase} {j : Identity},
      tokens.length < UInt64.size → Derives φ ⟨beforeEnd tokens, i⟩ ⟨[], j⟩ →
        Spread tokens.length i j φ.references := by
    intro tokens i φ j hlength h
    have hle : (beforeEnd tokens).length ≤ tokens.length := (List.takeWhile_sublist _).length_le
    obtain ⟨hdistinct, ⟨n, hn, hcounted⟩, hbetween⟩ := h.spread (Nat.lt_of_le_of_lt hle hlength)
    exact ⟨hdistinct, ⟨n, Nat.le_trans hn hle, hcounted⟩, hbetween⟩
  constructor
  · intro tokens i hlength
    constructor
    · intro ss j hparse
      exact hread tokens i hlength (parseProgram_iff_derives.mp hparse)
    · intro e j hparse
      exact hread tokens i hlength (parseExpression_iff_derives.mp hparse)
  · intro natives output s past r h hroom
    have howns := h.owns.enter hroom
    refine ⟨howns.distinct, howns.found, ?_⟩
    intro hnatives ch hch haccepted node m ref href hreach
    exact h.reaches hnatives hroom hch haccepted href hreach

/-- Two references in what a session is asked first. -/
theorem references_never_collide_first :
    ∃ ref ref', (⟨0, .run 1 "a; a;"⟩ : Asked).references = [ref, ref'] ∧ ref.id ≠ ref'.id := by
  have hlength : (⟨0, .run 1 "a; a;"⟩ : Asked).references.length = 2 := by decide +kernel
  have hroom : (Request.run 1 "a; a;").Room (Session.initial [.clock 0] .unlimited).nextId :=
    .of_size (by decide +kernel)
  obtain ⟨ref, ref', hrefs⟩ := List.length_eq_two.mp hlength
  obtain ⟨hdistinct, -⟩ := references_never_collide.2 [.clock 0] .unlimited _ [] _ .start hroom
  have hrefs' : ([] ++ [(⟨0, .run 1 "a; a;"⟩ : Asked)]).flatMap Asked.references = [ref, ref'] := by
    simp [hrefs]
  rw [show (Session.initial [.clock 0] .unlimited).nextId = 0 from rfl, hrefs'] at hdistinct
  exact ⟨ref, ref', hrefs, by simpa using hdistinct⟩

/-- Behind the last identity the parser goes on with the first, so that identities need not lie between
the two ends of their range. -/
theorem references_wrap :
    ¬∀ tokens i ss j, parseProgram tokens i = ⟨.ok ss, j⟩ →
      ∀ ref ∈ referencesStmts ss, i ≤ ref.id ∧ ref.id < j := by
  intro h
  have hreferences :
      (Source.program "a; b; c;" 18446744073709551614).parsed.toOption.map referencesStmts =
        some [⟨18446744073709551614, ⟨.identifier, "a", 1⟩⟩,
          ⟨18446744073709551615, ⟨.identifier, "b", 1⟩⟩, ⟨0, ⟨.identifier, "c", 1⟩⟩] := by
    decide +kernel
  have hnext : (Source.program "a; b; c;" 18446744073709551614).nextId = 1 := by decide +kernel
  obtain ⟨ss, hparsed, hss⟩ := Option.map_eq_some_iff.mp hreferences
  have hread := Source.result_of_parsed (Source.parsed_of_toOption hparsed)
  have hfirst := (h _ _ ss _ hread ⟨18446744073709551614, ⟨.identifier, "a", 1⟩⟩ (by simp [hss])).2
  change _ < (Source.program "a; b; c;" 18446744073709551614).nextId at hfirst
  rw [hnext] at hfirst
  exact absurd hfirst (by decide)

end LoxLang
