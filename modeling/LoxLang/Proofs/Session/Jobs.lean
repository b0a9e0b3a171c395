import LoxLang.Proofs.Eval.Upkeep
import LoxLang.Proofs.Scope.Accepted
import LoxLang.Proofs.Session.Moments

/-!
What a machine goes through. A host has a machine run one tree after the other, each under some table of
distances and with some fuel, and goes on however the last one has ended. The machines that it passes are
those between two of these jobs and those in which evaluation comes to a node. If the trees obey a law,
all of these machines are sound under it, and each lies between the beginning and the end, so that
whatever exists at two moments is the same at both as far as the law says. A session is such a host.
-/

namespace LoxLang

open Scope Eval

/-- A tree that a machine is to run, and how. -/
structure Job where
  chunk : Chunk
  distances : Distances
  fuel : Nat

def Job.setting (natives : List Native) (j : Job) : Setting :=
  ⟨natives, j.distances⟩

def Job.run (natives : List Native) (j : Job) (see : Node → Eval Unit) : Eval Answer :=
  j.chunk.watched see (j.setting natives) j.fuel

def Chunk.Obeys (law : Law) : Chunk → Prop
  | program ss => ObeysStmts law .none ss
  | expression e => e.Obeys law .none

theorem Chunk.obeys_any (ch : Chunk) : ch.Obeys .any := by
  cases ch with
  | program ss => exact obeysStmts_any ss .none
  | expression e => exact e.obeys_any .none

namespace Machine

/-- The machine behind some jobs, however each of them has ended. -/
def after (natives : List Native) : List Job → Machine → Machine
  | [], m => m
  | j :: js, m => after natives js (machineAfter (j.run natives idle) m)

/-- In the course of some jobs, evaluation comes to a node of one of them. -/
inductive Comes (natives : List Native) : Machine → List Job → Job → Node → Machine → Prop
  | now {m p : Machine} {j : Job} {js : List Job} {node : Node}
    (h : Reaches (j.run natives) m node p) : Comes natives m (j :: js) j node p
  | later {m p : Machine} {i j : Job} {js : List Job} {node : Node}
    (h : Comes natives (machineAfter (i.run natives idle) m) js j node p) :
    Comes natives m (i :: js) j node p

/-- In the course of some jobs, a machine is passed: between two of them, or at a node. -/
inductive Passes (natives : List Native) (m : Machine) (js : List Job) : Machine → Prop
  | between {done rest : List Job} (h : js = done ++ rest) : Passes natives m js (after natives done m)
  | within {p : Machine} {j : Job} {node : Node} (h : Comes natives m js j node p) :
    Passes natives m js p

/-- A machine that may be given trees that obey a law. -/
def Ready (law : Law) (m : Machine) : Prop :=
  m.heap.Stands law m.current .none

end Machine

/-! ### Upholding a law -/

section

variable {law : Law} {natives : List Native} {m p q : Machine} {j : Job} {js : List Job} {node : Node}

theorem Chunk.upholds {see : Node → Eval Unit} {σ : Setting} {h : Heap} {a : Address} {ch : Chunk}
    (hnatives : ∀ native ∈ σ.natives, native.Conserves) (hobeys : ch.Obeys law)
    (hstands : h.Stands law a .none) (fuel : Nat) :
    Upholds law σ see h a (ch.watched see σ fuel) (ch.watched idle σ fuel) fun _ _ => True := by
  cases ch with
  | program ss =>
      simp only [Chunk.watched, interpretWatched_idle]
      exact (Upholds.interpret hnatives fuel hstands hobeys).map fun _ _ _ _ _ => trivial
  | expression e =>
      simp only [Chunk.watched, evaluateWatched_idle]
      exact ((Upholds.evaluates_executes hnatives fuel).1 h a .none e hstands hobeys).map
        fun _ _ _ _ _ => trivial

theorem heapOf_eq {α : Type} (x : Eval α) (m : Machine) : heapOf (x m) = (machineAfter x m).heap := by
  unfold machineAfter
  cases x m <;> rfl

/-- A run that upholds a law however it is watched comes only to nodes that obey the law, in machines
between its beginning and its end, and so are the heaps that these nodes leave. -/
theorem Upholds.reaches {α : Type} {σ : Setting} {run : (Node → Eval Unit) → Eval α}
    {Q : Heap → α → Prop}
    (hrun : ∀ see, Upholds law σ see m.heap m.current (run see) (run idle) Q)
    (hreach : Reaches run m node p) : law.Admits node p ∧ m.heap.Grows law p.heap ∧
      ∃ left, node.Leaves σ p left ∧ p.heap.Grows law left ∧
        left.Grows law (machineAfter (run idle) m).heap := by
  obtain ⟨fault, hsee, hadmits, hbefore, hleaves, hnode, hbehind⟩ :=
    hreach.stopped fun fault => (hrun (stopAt node p fault) m rfl rfl).2
  rename_i seen n left
  obtain ⟨rfl, rfl⟩ : seen = node ∧ n = p := by
    by_contra hne
    exact hsee (stopAt_of_ne hne)
  exact ⟨hadmits, hbefore, left, hleaves, hnode, heapOf_eq (run idle) m ▸ hbehind⟩

theorem Job.upholds (hnatives : ∀ native ∈ natives, native.Conserves) (hobeys : j.chunk.Obeys law)
    (hready : m.Ready law) (see : Node → Eval Unit) :
    Upholds law (j.setting natives) see m.heap m.current (j.run natives see) (j.run natives idle)
      fun _ _ => True :=
  Chunk.upholds hnatives hobeys hready j.fuel

/-- A job leaves a machine ready for the next one. -/
theorem Job.ready (hnatives : ∀ native ∈ natives, native.Conserves) (hobeys : j.chunk.Obeys law)
    (hready : m.Ready law) : (machineAfter (j.run natives idle) m).Ready law ∧
      m.heap.Grows law (machineAfter (j.run natives idle) m).heap := by
  have hends := (Job.upholds hnatives hobeys hready idle m rfl rfl).1
  unfold machineAfter
  generalize j.run natives idle m = r at hends
  unfold Machine.Ready
  cases hends with
  | ok hle hsound hcurrent => exact ⟨hcurrent ▸ Heap.Stands.mono hready hle hsound, hle⟩
  | error hle hsound hcurrent => exact ⟨hcurrent ▸ Heap.Stands.mono hready hle hsound, hle⟩

theorem Machine.Ready.after (hnatives : ∀ native ∈ natives, native.Conserves)
    (hobeys : ∀ j ∈ js, j.chunk.Obeys law) (hready : m.Ready law) :
    (m.after natives js).Ready law ∧ m.heap.Grows law (m.after natives js).heap := by
  induction js generalizing m with
  | nil => exact ⟨hready, .refl law _⟩
  | cons j js ih =>
      obtain ⟨hj, hjs⟩ := List.forall_mem_cons.mp hobeys
      obtain ⟨hready₁, hle₁⟩ := Job.ready hnatives hj hready
      obtain ⟨hready₂, hle₂⟩ := ih hjs hready₁
      exact ⟨hready₂, hle₁.trans hle₂⟩

theorem Machine.after_append (natives : List Native) (js js' : List Job) (m : Machine) :
    m.after natives (js ++ js') = (m.after natives js).after natives js' := by
  induction js generalizing m with
  | nil => rfl
  | cons j js ih => exact ih _

/-- What evaluation comes to obeys the law, and lies between the beginning and the end, as does what it
leaves. -/
theorem Machine.Comes.admits (hcomes : Comes natives m js j node p)
    (hnatives : ∀ native ∈ natives, native.Conserves) (hobeys : ∀ j ∈ js, j.chunk.Obeys law)
    (hready : m.Ready law) : law.Admits node p ∧ m.heap.Grows law p.heap ∧
      ∃ left, node.Leaves (j.setting natives) p left ∧ p.heap.Grows law left ∧
        left.Grows law (m.after natives js).heap := by
  induction hcomes with
  | now h =>
      obtain ⟨hj, hjs⟩ := List.forall_mem_cons.mp hobeys
      obtain ⟨hadmits, hbefore, left, hleaves, hnode, hbehind⟩ :=
        Upholds.reaches (Job.upholds hnatives hj hready) h
      obtain ⟨hready₁, -⟩ := Job.ready hnatives hj hready
      exact ⟨hadmits, hbefore, left, hleaves, hnode, hbehind.trans (hready₁.after hnatives hjs).2⟩
  | later _ ih =>
      obtain ⟨hj, hjs⟩ := List.forall_mem_cons.mp hobeys
      obtain ⟨hready₁, hle₁⟩ := Job.ready hnatives hj hready
      obtain ⟨hadmits, hbefore, hbehind⟩ := ih hjs hready₁
      exact ⟨hadmits, hle₁.trans hbefore, hbehind⟩

theorem Machine.Passes.sound (hpasses : m.Passes natives js p)
    (hnatives : ∀ native ∈ natives, native.Conserves) (hobeys : ∀ j ∈ js, j.chunk.Obeys law)
    (hready : m.Ready law) : p.heap.Sound law ∧ p.heap.RunsCode p.current ∧
      p.heap.Grows law (m.after natives js).heap := by
  cases hpasses with
  | @between done rest h =>
      subst h
      obtain ⟨hdone, hrest⟩ := List.forall_mem_append.mp hobeys
      obtain ⟨hready₁, -⟩ := hready.after hnatives hdone
      rw [Machine.after_append]
      exact ⟨hready₁.sound, hready₁.code, (hready₁.after hnatives hrest).2⟩
  | within h =>
      obtain ⟨hadmits, -, left, -, hnode, hbehind⟩ := h.admits hnatives hobeys hready
      exact ⟨hadmits.sound, hadmits.code, hnode.trans hbehind⟩

end

/-! ### The beginning -/

theorem Machine.frame_initial (natives : List Native) (output : Output) (a : Address) :
    (initial natives output).heap.frame a =
      ⟨if a = Heap.globals then Native.bindings natives else [], none, .globals⟩ := by
  cases a with
  | zero => rfl
  | succ a => rfl

theorem Machine.ready_initial (law : Law) (natives : List Native) (output : Output) :
    (initial natives output).Ready law := by
  have hcode : (initial natives output).heap.RunsCode Heap.globals := ⟨Nat.zero_lt_one, rfl, rfl⟩
  refine ⟨?_, hcode, .globals hcode rfl⟩
  constructor
  case globals => exact Nat.zero_lt_one
  case placed =>
    intro a ha
    obtain rfl : a = 0 := Nat.lt_one_iff.mp ha
    exact .globals rfl rfl rfl
  case values =>
    intro a name v hv
    rw [frame_initial] at hv
    dsimp only at hv
    split at hv
    · obtain ⟨i, rfl⟩ := Native.find?_bindings hv
      trivial
    · cases hv
  case functions | classes | classOf => exact nofun
  case fields =>
    intro i name v hv
    rw [Heap.instanceObject_of_le (Nat.zero_le i)] at hv
    cases hv

/-! ### Sessions -/

namespace Session

/-- What a request has the machine of a session run. -/
def job? (r : Request) (s : Session) : Option Job :=
  match r.chunk? s.nextId with
  | some ch => if ch.Accepted then some ⟨ch, (s.entered r).distances, r.fuel⟩ else none
  | none => none

/-- What requests have the machine run. After a request that is given too little fuel there is no next
one. -/
def jobs : List Request → Session → List Job
  | [], _ => []
  | r :: rest, s =>
    (s.job? r).toList ++ match s.handle r with
      | some t => jobs rest t.session
      | none => []

/-- The visits of all the trees that requests have the machine run. -/
def visits : List Request → Session → List Visit
  | [], _ => []
  | r :: rest, s =>
    r.visits s.nextId ++ match s.handle r with
      | some t => visits rest t.session
      | none => []

variable {s : Session} {r : Request} {t : Step Answer}

theorem job?_eq_some {j : Job} (h : s.job? r = some j) :
    ∃ ch, r.chunk? s.nextId = some ch ∧ ch.Accepted ∧ j = ⟨ch, (s.entered r).distances, r.fuel⟩ := by
  unfold job? at h
  split at h
  case h_1 ch hch =>
    split at h
    case isTrue haccepted => exact ⟨ch, hch, haccepted, (Option.some.inj h).symm⟩
    case isFalse => cases h
  case h_2 => cases h

/-- A step leaves the machine as the job of its request does. -/
theorem machine_of_handle (h : s.handle r = some t) :
    t.session.machine = s.machine.after s.natives (s.job? r).toList := by
  unfold job?
  cases hch : r.chunk? s.nextId with
  | none =>
      obtain ⟨status, reports, answer, -, -, hhandle⟩ := handle_of_none hch
      rw [hhandle s rfl] at h
      cases h
      rfl
  | some ch =>
      rw [handle_of_chunk hch] at h
      dsimp only
      split at h
      case isFalse haccepted =>
        cases h
        rw [if_neg haccepted]
        rfl
      case isTrue haccepted =>
        rw [if_pos haccepted, Option.toList_some, Machine.after, Machine.after]
        unfold machineAfter
        rcases perform_cases h with ⟨_, _, hrun, rfl⟩ | ⟨_, _, _, hrun, -, rfl⟩
        all_goals
          replace hrun : Job.run s.natives ⟨ch, (s.entered r).distances, r.fuel⟩ idle s.machine = _ := hrun
          rw [hrun]

/-- The machine behind the first step is passed. -/
theorem passes_handled (h : s.handle r = some t) (rs : List Request) :
    s.machine.Passes s.natives (s.jobs (r :: rs)) t.session.machine := by
  rw [machine_of_handle h]
  exact .between rfl

/-- What the first step comes to is come to. -/
theorem comes_now {j : Job} {node : Node} {p : Machine} (hjob : s.job? r = some j)
    (hreach : Reaches (j.run s.natives) s.machine node p) (rs : List Request) :
    Machine.Comes s.natives s.machine (s.jobs (r :: rs)) j node p := by
  rw [jobs, hjob]
  exact .now hreach

/-- The first node of the first step is come to at once. -/
theorem comes_first {j : Job} {node : Node} {fuel : Nat} (hjob : s.job? r = some j)
    (hfirst : j.chunk.first? = some node) (hfuel : r.fuel = fuel + 1) (rs : List Request) :
    Machine.Comes s.natives s.machine (s.jobs (r :: rs)) j node s.machine := by
  refine comes_now hjob ?_ rs
  obtain ⟨ch, -, -, rfl⟩ := job?_eq_some hjob
  unfold Job.run
  rw [hfuel]
  exact Chunk.reaches_first hfirst _ fuel _

/-- What the later steps come to is come to. -/
theorem comes_handled {j : Job} {node : Node} {p : Machine} {rs : List Request}
    (h : s.handle r = some t)
    (hcomes : Machine.Comes s.natives t.session.machine (t.session.jobs rs) j node p) :
    Machine.Comes s.natives s.machine (s.jobs (r :: rs)) j node p := by
  rw [jobs, h]
  rw [machine_of_handle h] at hcomes
  cases hjob : s.job? r with
  | none =>
      rw [hjob] at hcomes
      exact hcomes
  | some i =>
      rw [hjob] at hcomes
      exact .later hcomes

/-- Requests leave the machine as their jobs do. -/
theorem machine_of_passages {rs : List Request} {ps : List Passage} (h : s.passages rs = some ps) :
    (ps.getLast?.elim s fun p => p.step.session).machine = s.machine.after s.natives (s.jobs rs) := by
  induction rs generalizing s ps with
  | nil =>
      cases h
      rfl
  | cons r rest ih =>
      rw [passages] at h
      obtain ⟨t, ht, h⟩ := Option.bind_eq_some_iff.mp h
      obtain ⟨qs, hqs, h⟩ := Option.bind_eq_some_iff.mp h
      cases h
      have hrest := ih hqs
      rw [natives_of_handle ht, machine_of_handle ht] at hrest
      rw [jobs, ht, Machine.after_append, ← hrest, List.getLast?_cons]
      cases qs.getLast? <;> rfl

end Session

/-- A chunk that is read from text and accepted obeys the law of accepted programs. -/
theorem Request.chunk_obeys {i : Identity} {r : Request} {ch : Chunk} (h : r.chunk? i = some ch)
    (haccepted : ch.Accepted) : ch.Obeys .accepted := by
  have hspelled := (r.derives_chunk h).2.spelled (scanned_textTokens r.text).genuine
  cases ch with
  | program ss =>
      refine obeysStmts_accepted (p := []) ss hspelled ?_
      have hreports := walkStmts_reports ss stands_initial
      exact List.filterMap_eq_nil_iff.mp (hreports.symm.trans haccepted)
  | expression e =>
      refine e.obeys_accepted (p := []) hspelled ?_
      have hreports := e.walk_reports stands_initial.reads
      exact List.filterMap_eq_nil_iff.mp (hreports.symm.trans haccepted)

/-- A session has only such chunks run as have been read from text and accepted. -/
theorem Session.chunk_of_mem_jobs {s : Session} {rs : List Request} :
    ∀ j ∈ s.jobs rs, ∃ i, ∃ r : Request, r.chunk? i = some j.chunk ∧ j.chunk.Accepted := by
  induction rs generalizing s with
  | nil => exact nofun
  | cons r rest ih =>
      refine List.forall_mem_append.mpr ⟨?_, ?_⟩
      · intro j hj
        obtain ⟨ch, hch, haccepted, rfl⟩ := job?_eq_some (Option.mem_toList.mp hj)
        exact ⟨s.nextId, r, hch, haccepted⟩
      · cases s.handle r with
        | none => exact nofun
        | some t => exact ih

theorem Session.jobs_obey {s : Session} {rs : List Request} :
    ∀ j ∈ s.jobs rs, j.chunk.Obeys .accepted := by
  intro j hj
  obtain ⟨i, r, hch, haccepted⟩ := chunk_of_mem_jobs j hj
  exact Request.chunk_obeys hch haccepted

/-- Where a session comes to a node, it has made a history and runs a request that has been read and
accepted, and its visits are among those of the requests. -/
theorem History.comes {natives : List Native} {output : Output} {s : Session} {vs : List Visit}
    {n : Nat} {rs : List Request} {j : Job} {node : Node} {p : Machine}
    (h : History natives output s vs n)
    (hcomes : Machine.Comes natives s.machine (s.jobs rs) j node p) :
    ∃ s' vs' n' r ch, History natives output s' vs' n' ∧
      vs' ++ r.visits s'.nextId ⊆ vs ++ s.visits rs ∧
      n' + r.text.length ≤ n + Request.characters rs ∧ r.chunk? s'.nextId = some ch ∧ ch.Accepted ∧
      j = ⟨ch, (s'.entered r).distances, r.fuel⟩ ∧ Reaches (j.run natives) s'.machine node p := by
  induction rs generalizing s vs n with
  | nil => cases hcomes
  | cons r rest ih =>
      have hlater : ∀ {m : Machine}, m = s.machine.after natives (s.job? r).toList →
          Machine.Comes natives m (match s.handle r with
            | some t => t.session.jobs rest
            | none => []) j node p →
          ∃ s' vs' n' r' ch, History natives output s' vs' n' ∧
            vs' ++ r'.visits s'.nextId ⊆ vs ++ s.visits (r :: rest) ∧
            n' + r'.text.length ≤ n + Request.characters (r :: rest) ∧
            r'.chunk? s'.nextId = some ch ∧ ch.Accepted ∧
            j = ⟨ch, (s'.entered r').distances, r'.fuel⟩ ∧
            Reaches (j.run natives) s'.machine node p := by
        rintro m hm hrest
        cases ht : s.handle r with
        | none =>
            rw [ht] at hrest
            cases hrest
        | some t =>
            rw [ht] at hrest
            rw [hm, ← h.natives_eq, ← Session.machine_of_handle ht, h.natives_eq] at hrest
            obtain ⟨s', vs', n', r', ch, h', hvisits, hsize, hch⟩ := ih (h.step ht) hrest
            refine ⟨s', vs', n', r', ch, h', ?_, ?_, hch⟩
            · rw [Session.visits, ht, ← List.append_assoc]
              exact hvisits
            · rw [Request.characters, ← Nat.add_assoc]
              exact hsize
      rw [Session.jobs] at hcomes
      cases hjob : s.job? r with
      | none =>
          rw [hjob] at hcomes hlater
          exact hlater rfl hcomes
      | some i =>
          rw [hjob] at hcomes hlater
          cases hcomes with
          | now hreach =>
              obtain ⟨ch, hch, haccepted, rfl⟩ := Session.job?_eq_some hjob
              refine ⟨s, vs, n, r, ch, h, ?_, ?_, hch, haccepted, rfl, hreach⟩
              · rw [Session.visits, ← List.append_assoc]
                exact List.subset_append_left _ _
              · rw [Request.characters, ← Nat.add_assoc]
                exact Nat.le_add_right _ _
          | later hrest => exact hlater rfl hrest

/-- Where a session comes to a reference, it resolves as at one of its visits. -/
theorem Session.resolves_of_comes {natives : List Native} {output : Output}
    (hnatives : ∀ native ∈ natives, native.Faithful) {rs : List Request}
    (hsize : Request.characters rs < UInt64.size) {j : Job} {node : Node} {p : Machine}
    {ref : Reference} (hcomes : Machine.Comes natives (Machine.initial natives output)
      ((initial natives output).jobs rs) j node p) (href : node.reference? = some ref) :
    ∃ v ∈ (initial natives output).visits rs, Resolves (j.setting natives) p ref v ∧
      ∀ value, node = .expr (.assign ref value) → ∀ k w p',
        Eval.evaluate (j.setting natives) k value p = .ok w p' →
          Resolves (j.setting natives) p' ref v := by
  obtain ⟨s, vs, n, r, ch, h, hvisits, hle, hch, haccepted, rfl, hreach⟩ :=
    History.comes (.start : History natives output _ [] 0) hcomes
  have hroom : n + r.text.length < UInt64.size := by
    rw [Nat.zero_add] at hle
    exact Nat.lt_of_le_of_lt hle hsize
  obtain ⟨W, hself⟩ := h.inStep ofVariables_same hnatives
    (Nat.lt_of_le_of_lt (Nat.le_add_right ..) hroom)
  obtain ⟨hentered, halike⟩ := hself.running ofVariables_same hroom hch haccepted
  obtain rfl := h.natives_eq
  obtain ⟨v, hv, hresolves⟩ := hentered.resolves hnatives halike r.fuel href hreach
  exact ⟨v, hvisits hv, hresolves⟩

/-- Each step of a session is one that it takes after a history of its own. -/
theorem History.of_mem_passages {natives : List Native} {output : Output} {s : Session}
    {vs : List Visit} {n : Nat} {rs : List Request} {ps : List Passage} {passage : Passage}
    (h : History natives output s vs n) (hps : s.passages rs = some ps) (hmem : passage ∈ ps) :
    ∃ vs' n', History natives output passage.before vs' n' ∧
      n' + passage.request.text.length ≤ n + Request.characters rs ∧
      passage.before.handle passage.request = some passage.step := by
  induction rs generalizing s vs n ps with
  | nil =>
      cases hps
      cases hmem
  | cons r rest ih =>
      rw [Session.passages] at hps
      obtain ⟨t, ht, hps⟩ := Option.bind_eq_some_iff.mp hps
      obtain ⟨qs, hqs, hps⟩ := Option.bind_eq_some_iff.mp hps
      cases hps
      rw [Request.characters, ← Nat.add_assoc]
      rcases List.mem_cons.mp hmem with rfl | hmem
      · exact ⟨vs, n, h, Nat.le_add_right _ _, ht⟩
      · exact ih (h.step ht) hqs hmem

/-- The machine of a session is one behind the jobs that it has had. -/
theorem History.jobs {natives : List Native} {output : Output} {s : Session} {vs : List Visit}
    {n : Nat} (h : History natives output s vs n) :
    ∃ js, s.machine = (Machine.initial natives output).after natives js := by
  induction h with
  | start => exact ⟨[], rfl⟩
  | @step s vs n r t h hstep ih =>
      obtain ⟨js, hjs⟩ := ih
      refine ⟨js ++ (s.job? r).toList, ?_⟩
      rw [Session.machine_of_handle hstep, Machine.after_append, ← hjs, h.natives_eq]

end LoxLang
