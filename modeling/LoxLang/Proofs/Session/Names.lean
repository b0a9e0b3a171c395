import LoxLang.Proofs.Eval.Names
import LoxLang.Proofs.Session.Jobs

/-!
Scopes do not leak. Every frame but that of the globals binds only names that are declared directly in
what it was opened for, and no frame ever loses one. A program adds to the globals names of its own
declarations at the top level, an expression and an assignment none.
-/

namespace LoxLang

open Scope Eval Heap

/-- The names that a chunk declares at the top level. -/
def Chunk.declares : Chunk → List String
  | program ss => declaredNames ss
  | expression _ => []

/-- The names that the text of a request declares at the top level, if it is run. -/
def Request.declares (i : Identity) (r : Request) : List String :=
  ((r.chunk? i).map Chunk.declares).getD []

theorem Request.chunk_spelled {i : Identity} {r : Request} {ch : Chunk} (h : r.chunk? i = some ch) :
    ch.Spelled := by
  have hspelled := (r.derives_chunk h).2.spelled (scanned_textTokens r.text).genuine
  cases ch <;> exact hspelled

namespace Machine

/-- In the course of some jobs, a machine is passed no later than another: in a job before, or at a node
to which the same job comes first. -/
inductive Precedes (natives : List Native) (m : Machine) (js : List Job) (p q : Machine) : Prop
  | apart {done rest : List Job} (h : js = done ++ rest) (hp : m.Passes natives done p)
    (hq : (m.after natives done).Passes natives rest q) : Precedes natives m js p q
  | within {done rest : List Job} {j : Job} {node node' : Node} (h : js = done ++ j :: rest)
    (hturn : ReachesInTurn (j.run natives) (m.after natives done) node p node' q) :
    Precedes natives m js p q

/-- A machine between two jobs. -/
structure Rests (m : Machine) : Prop where
  spelled : m.heap.Spelled
  confined : m.heap.Confined
  current : m.current = globals

end Machine

section

variable {natives : List Native} {output : Output} {m p q : Machine} {j : Job} {js : List Job}
  {node : Node}

/-- A job adds the names that it declares to those of the frame that it begins in. -/
theorem Job.declares (hspelled : m.heap.Spelled) (hch : j.chunk.Spelled) {see see' : Node → Eval Unit}
    (hstricter : Stricter see see') :
    Declares see m.heap m.current j.chunk.declares (j.run natives see) (j.run natives see') := by
  obtain ⟨ch, distances, fuel⟩ := j
  cases ch with
  | program ss => exact (Declares.interpret hstricter fuel hspelled hch (List.Subset.refl _)).map
  | expression e =>
      exact ((Declares.evaluates_executes hstricter fuel).1 _ _ _ e hspelled hch).map

namespace Machine

theorem Rests.job (hm : m.Rests) (hch : j.chunk.Spelled) :
    (machineAfter (j.run natives idle) m).Rests ∧
      m.heap.Adds globals j.chunk.declares (machineAfter (j.run natives idle) m).heap := by
  have hidle : Stricter idle idle := ⟨fun _ _ => .inl rfl, fun _ _ => .inl rfl, fun _ _ _ => rfl⟩
  obtain ⟨hadds, hspelled, hcurrent⟩ := (Job.declares hm.spelled hch hidle m rfl rfl).1
  rw [hm.current] at hadds hcurrent
  exact ⟨⟨hspelled, hadds.confined hm.confined, hcurrent⟩, hadds⟩

/-- A job comes only to nodes where its names, and no others, may have been added. -/
theorem Rests.reaches (hm : m.Rests) (hch : j.chunk.Spelled)
    (hreach : Reaches (j.run natives) m node p) : m.heap.Adds globals j.chunk.declares p.heap ∧
      p.heap.Keeps (machineAfter (j.run natives idle) m).heap := by
  obtain ⟨hadds, hkeeps, -⟩ :=
    Declares.reaches (fun _ _ hstricter => Job.declares hm.spelled hch hstricter) hreach
  exact ⟨hm.current ▸ hadds, hkeeps⟩

theorem Rests.after (hm : m.Rests) (hjs : ∀ j ∈ js, j.chunk.Spelled) :
    (m.after natives js).Rests ∧ m.heap.Keeps (m.after natives js).heap := by
  induction js generalizing m with
  | nil => exact ⟨hm, .refl _⟩
  | cons j js ih =>
      obtain ⟨hj, hjs⟩ := List.forall_mem_cons.mp hjs
      obtain ⟨hm₁, hadds⟩ := hm.job hj
      obtain ⟨hm₂, hkeeps⟩ := ih hm₁ hjs
      exact ⟨hm₂, hadds.toKeeps.trans hkeeps⟩

theorem Rests.comes (hm : m.Rests) (hjs : ∀ j ∈ js, j.chunk.Spelled)
    (hcomes : Comes natives m js j node p) :
    p.heap.Confined ∧ m.heap.Keeps p.heap ∧ p.heap.Keeps (m.after natives js).heap := by
  induction hcomes with
  | now hreach =>
      obtain ⟨hj, hjs⟩ := List.forall_mem_cons.mp hjs
      obtain ⟨hadds, hkeeps⟩ := hm.reaches hj hreach
      exact ⟨hadds.confined hm.confined, hadds.toKeeps, hkeeps.trans ((hm.job hj).1.after hjs).2⟩
  | later _ ih =>
      obtain ⟨hj, hjs⟩ := List.forall_mem_cons.mp hjs
      obtain ⟨hm₁, hadds⟩ := hm.job hj
      obtain ⟨hconfined, hbefore, hbehind⟩ := ih hm₁ hjs
      exact ⟨hconfined, hadds.toKeeps.trans hbefore, hbehind⟩

theorem Rests.passes (hm : m.Rests) (hjs : ∀ j ∈ js, j.chunk.Spelled)
    (hpasses : m.Passes natives js p) :
    p.heap.Confined ∧ m.heap.Keeps p.heap ∧ p.heap.Keeps (m.after natives js).heap := by
  cases hpasses with
  | @between done rest h =>
      subst h
      obtain ⟨hdone, hrest⟩ := List.forall_mem_append.mp hjs
      obtain ⟨hm₁, hkeeps⟩ := hm.after hdone
      rw [after_append]
      exact ⟨hm₁.confined, hkeeps, (hm₁.after hrest).2⟩
  | within hcomes => exact hm.comes hjs hcomes

theorem Rests.precedes (hm : m.Rests) (hjs : ∀ j ∈ js, j.chunk.Spelled)
    (hprecedes : Precedes natives m js p q) : p.heap.Keeps q.heap := by
  cases hprecedes with
  | apart h hp hq =>
      subst h
      obtain ⟨hdone, hrest⟩ := List.forall_mem_append.mp hjs
      obtain ⟨-, -, hbehind⟩ := hm.passes hdone hp
      obtain ⟨-, hbefore, -⟩ := (hm.after hdone).1.passes hrest hq
      exact hbehind.trans hbefore
  | within h hturn =>
      subst h
      obtain ⟨hdone, hrest⟩ := List.forall_mem_append.mp hjs
      have hj := (List.forall_mem_cons.mp hrest).1
      exact Declares.reaches_in_turn
        (fun _ _ hstricter => Job.declares (hm.after hdone).1.spelled hj hstricter) hturn

theorem rests_initial (natives : List Native) (output : Output) : (initial natives output).Rests := by
  refine ⟨fun f => ?_, fun a ha name hname => ?_, rfl⟩
  · exact ⟨nofun, trivial⟩
  · rw [Binds, frame_initial, if_neg ha] at hname
    cases hname

end Machine

theorem Session.jobs_spelled {s : Session} {rs : List Request} : ∀ j ∈ s.jobs rs, j.chunk.Spelled := by
  intro j hj
  obtain ⟨i, r, hch, -⟩ := chunk_of_mem_jobs j hj
  exact r.chunk_spelled hch

theorem Session.job?_declares {s : Session} {r : Request} (hjob : s.job? r = some j) :
    j.chunk.Spelled ∧ r.declares s.nextId = j.chunk.declares := by
  obtain ⟨ch, hch, -, rfl⟩ := job?_eq_some hjob
  exact ⟨r.chunk_spelled hch, by rw [Request.declares, hch]; rfl⟩

theorem History.rests {s : Session} {vs : List Visit} {n : Nat} (h : History natives output s vs n) :
    s.machine.Rests := by
  induction h with
  | start => exact Machine.rests_initial natives output
  | @step s vs n r t h hstep ih =>
      rw [Session.machine_of_handle hstep]
      refine (ih.after fun j hj => ?_).1
      exact (Session.job?_declares (Option.mem_toList.mp hj)).1

/-- A step adds the names that its text declares at the top level to the globals. -/
theorem Session.adds_of_handle {s : Session} {r : Request} {t : Step Answer} (hs : s.machine.Rests)
    (h : s.handle r = some t) :
    s.machine.heap.Adds globals (r.declares s.nextId) t.session.machine.heap := by
  rw [machine_of_handle h]
  cases hjob : s.job? r with
  | none => exact .refl _ _ _
  | some j =>
      obtain ⟨hj, hdeclares⟩ := job?_declares hjob
      exact hdeclares ▸ (hs.job hj).2

theorem Request.declares_evaluate (i : Identity) (fuel : Nat) (text : String) :
    (Request.evaluate fuel text).declares i = [] := by
  simp only [declares, chunk?]
  cases (Source.expression text i).tree? <;> rfl

/-- Which names frames bind while sessions run. -/
structure NamesStay (natives : List Native) (output : Output) : Prop where
  /-- Each frame but that of the globals binds only names that are declared directly in what it was opened
  for. -/
  confined : ∀ rs p, (Machine.initial natives output).Passes natives
    ((Session.initial natives output).jobs rs) p → p.heap.Confined
  /-- What a frame binds it still binds in all machines that are passed later. -/
  keeps : ∀ rs p q, (Machine.initial natives output).Precedes natives
    ((Session.initial natives output).jobs rs) p q → p.heap.Keeps q.heap
  /-- A step adds to the globals only names that its own text declares at the top level, and to other frames
  that were there no names at all. -/
  step_adds : ∀ s vs n, History natives output s vs n → ∀ r t, s.handle r = some t →
    s.machine.heap.Adds globals (r.declares s.nextId) t.session.machine.heap
  within_adds : ∀ s vs n, History natives output s vs n → ∀ r j, s.job? r = some j → ∀ node p,
    Reaches (j.run natives) s.machine node p → s.machine.heap.Adds globals (r.declares s.nextId) p.heap
  /-- Where a step evaluates an expression, it adds no names to the globals either. -/
  evaluate_adds_none : ∀ s vs n, History natives output s vs n → ∀ fuel text t,
    s.handle (.evaluate fuel text) = some t → ∀ a < s.machine.heap.frames.size, ∀ name,
      t.session.machine.heap.Binds a name ↔ s.machine.heap.Binds a name
  /-- An assignment leaves every frame with the names that it binds, whether it finds its variable or
  not. -/
  assignTo_binds : ∀ σ ref v m a name,
    (machineAfter (assignTo σ ref v) m).heap.Binds a name ↔ m.heap.Binds a name
  assign_binds : ∀ (h h' : Heap) (a distance : Nat) (name : String) (v : Value),
    h.assign a name v = .ok h' ∨ h.assignAt a distance name v = .ok h' →
      ∀ b other, h'.Binds b other ↔ h.Binds b other

/-- Names are bound where they are declared and nowhere else, at all times, in every machine that a session
passes, between its steps and within them, however these end. -/
theorem names_stay_where_declared (natives : List Native) (output : Output) :
    NamesStay natives output := by
  have hinitial := Machine.rests_initial natives output
  constructor
  case confined => exact fun rs p hp => (hinitial.passes Session.jobs_spelled hp).1
  case keeps => exact fun rs p q hpq => hinitial.precedes Session.jobs_spelled hpq
  case step_adds => exact fun s vs n h r t ht => Session.adds_of_handle h.rests ht
  case within_adds =>
    intro s vs n h r j hjob node p hreach
    obtain ⟨hj, hdeclares⟩ := Session.job?_declares hjob
    exact hdeclares ▸ (h.rests.reaches hj hreach).1
  case evaluate_adds_none =>
    intro s vs n h fuel text t ht a ha name
    have hadds := Session.adds_of_handle h.rests ht
    rw [Request.declares_evaluate] at hadds
    exact hadds.binds_iff ha
  case assignTo_binds => exact fun σ ref v m a name => binds_assignTo σ ref v m
  case assign_binds =>
    rintro h h' a distance name v (hassign | hassign) b other
    · exact binds_assign hassign
    · exact binds_assignAt hassign

/-- A call in a block: the frame of the call has the parameter and the local variable of the function,
and only the variable at the top level is a global. -/
theorem names_stay_where_declared_call :
    ∃ t, (Session.initial [] .unlimited).handle
        (.run 20 "var g; \x7b fun f(b) \x7b var c; \x7d f(1); \x7d") = some t ∧
      t.session.machine.heap.Binds 2 "b" ∧ t.session.machine.heap.Binds 2 "c" ∧
      (∀ name, t.session.machine.heap.Binds 2 name → name ∈ ["b", "c"]) ∧
      ∀ name, t.session.machine.heap.Binds globals name → name = "g" := by
  have hrun : ((Session.initial [] .unlimited).handle
      (.run 20 "var g; \x7b fun f(b) \x7b var c; \x7d f(1); \x7d")).map (fun t =>
        ((t.session.machine.heap.frame 2).bindings.contains "b",
          (t.session.machine.heap.frame 2).bindings.contains "c",
          (t.session.machine.heap.frame 2).origin.declares)) = some (true, true, ["b", "c"]) := by
    decide +kernel
  have hdeclares : (Request.run 20 "var g; \x7b fun f(b) \x7b var c; \x7d f(1); \x7d").declares 0 =
      ["g"] := by decide +kernel
  obtain ⟨t, ht, hframe⟩ := Option.map_eq_some_iff.mp hrun
  obtain ⟨hb, hc, horigin⟩ : _ ∧ _ ∧ _ := by simpa only [Prod.mk.injEq] using hframe
  have hstay := names_stay_where_declared [] .unlimited
  refine ⟨t, ht, hb, hc, fun name hname => ?_, fun name hname => ?_⟩
  · have hpasses := Session.passes_handled ht []
    exact horigin ▸ hstay.confined _ _ hpasses 2 (by decide) name hname
  · have hadded := (hstay.step_adds _ _ _ .start _ t ht).added globals name hname
    rcases hadded with hold | ⟨-, hmem⟩ | ⟨hnew, -⟩
    · cases hold
    · exact List.mem_singleton.mp (hdeclares ▸ hmem)
    · exact absurd hnew (by decide)

end

end LoxLang
