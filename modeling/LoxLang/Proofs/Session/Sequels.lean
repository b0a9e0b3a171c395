import LoxLang.Proofs.Eval.ForLoop
import LoxLang.Proofs.Session.Stations

/-!
What comes after a run. Two machines that stand on the two sides of a bypass can be given further trees,
in any frame that was there before the sides parted. They answer alike, put out the same, and what was
there before stays the same on both sides.
-/

namespace LoxLang

open Scope Eval

/-- Two machines agree on what was on a heap before, on all classes and instances, on the output, and on
how often host functions have answered. -/
structure Machine.Agree (h : Heap) (m m' : Machine) : Prop where
  output : m'.output = m.output
  answered : m'.answered = m.answered
  current : m'.current = m.current
  frames : ∀ a < h.frames.size, (m'.heap.frame a).bindings = (m.heap.frame a).bindings ∧
    (m'.heap.frame a).enclosing = (m.heap.frame a).enclosing
  functions : m'.heap.functions.size = m.heap.functions.size
  function : ∀ f < h.functions.size, m'.heap.function f = m.heap.function f
  classes : m'.heap.classes = m.heap.classes
  instances : m'.heap.instances = m.heap.instances

/-- Two runs have one result, or two faults that are the same for some purpose, and end with machines
that agree on what was there before. -/
inductive Eval.EndAlike {α : Type} (same : Fault → Fault → Prop) (h : Heap) :
    EStateM.Result Fault Machine α → EStateM.Result Fault Machine α → Prop
  | ok {v : α} {m m' : Machine} (hagree : m.Agree h m') : EndAlike same h (.ok v m) (.ok v m')
  | error {fault fault' : Fault} {m m' : Machine} (hfault : same fault fault')
    (hagree : m.Agree h m') : EndAlike same h (.error fault m) (.error fault' m')

/-- A tree that is run later: what reading it has entered into the table, and the frame it is run in. -/
structure Sequel where
  chunk : Chunk
  entries : Distances
  frame : Address
  fuel : Nat

namespace Sequel

/-- Runs a tree with the entries of a table behind its own. -/
def run (natives : List Native) (T : Distances) (q : Sequel) : Eval Answer :=
  inFrame q.frame (q.chunk.watched idle ⟨natives, q.entries ++ T⟩ q.fuel)

/-- The machine behind some sequels, however each of them has ended. -/
def after (natives : List Native) (T : Distances) : List Sequel → Machine → Machine
  | [], m => m
  | q :: qs, m => after natives T qs (machineAfter (q.run natives T) m)

/-- The sequel was read when some identities were taken, and is run in a frame of a heap. -/
structure Fits (h : Heap) (firstId : Identity) (taken : List Identity) (q : Sequel) : Prop where
  spelled : q.chunk.Spelled
  references : ∀ ref ∈ q.chunk.references, ref.id ∉ taken
  entries : ∀ entry ∈ q.entries, firstId ≤ entry.1 ∧ entry.1 ∉ taken
  frame : q.frame < h.frames.size

end Sequel

namespace Bypass

/-! ### The beginning -/

/-- A heap on both sides. -/
def alone (h : Heap) : Bypass where
  left := h
  right := h
  image := id
  bypassed _ := False

variable {F : Knowledge} {us : List Use} {ws : List Station} {h : Heap} {W : Bypass} {a : Address}

theorem stands_alone (ha : a < h.frames.size) (n : Nat) : (alone h).Stands a none n :=
  ⟨ha, nofun, fun _ _ _ => ⟨False.elim, nofun⟩⟩

/-- A sound heap is its own counterpart. -/
theorem good_alone (hsound : h.Sound (.within us ws)) (hF : ∀ u : Use, u.ref ∈ us.map Use.ref → F 0 none u) :
    (alone h).Good F := by
  have hfunction : ∀ {gap : Nat} (p : Path), p.depth = gap → ∀ f < h.functions.size,
      (alone h).SameFunction F gap f := by
    intro gap p hdepth f hf
    obtain ⟨hclosure, ⟨hspelled, hrefs⟩, -⟩ := hsound.functions f hf
    refine ⟨hf, rfl, rfl, hspelled, ?_, fun _ _ => id⟩
    refine ⟨0, none, p, false, 0, by omega, stands_alone hclosure 0, ?_, ?_⟩
    · exact (FunctionDecl.relabel_zero _).symm
    · intro u hu
      apply hF
      apply hrefs
      rw [← FunctionDecl.references_uses _ false p]
      exact List.mem_map_of_mem hu
  have hvalid : ∀ {v : Value}, h.Has (.within us ws) v → (alone h).Valid F v := by
    intro v hv
    cases v with
    | function f => exact hfunction [] rfl f hv.size
    | _ => trivial
  constructor
  case toGoodFrames =>
    refine ⟨hsound.linked, hsound.linked, hsound.globals, rfl, fun _ => id, ?_, nofun, ?_⟩
    · exact fun a _ _ => ⟨rfl, Option.map_id'.symm⟩
    · exact fun _ _ _ _ _ _ => id
  case functions | classes | instances => rfl
  case values => exact fun a name v hv => hvalid (hsound.values a name v hv)
  case fields => exact fun i name v hv => hvalid (hsound.fields i name v hv)
  case methods =>
    intro c name f hf
    rcases Nat.lt_or_ge c h.classes.size with hc | hc
    · exact hfunction [.block []] rfl f ((hsound.classes c hc).methods name f hf).size
    · rw [alone, Heap.classObject_of_le hc] at hf
      cases hf

/-! ### Runs -/

/-- Two machines that have parted on a heap: they stand on the two sides of a later bypass. -/
def Parted (F : Knowledge) (h : Heap) (a : Address) (m m' : Machine) : Prop :=
  ∃ W, (alone h).Le W ∧ W.Good F ∧ W.InStep a m m'

/-- What was on a heap before is on both sides as it is on one. -/
theorem Parted.agree {m m' : Machine} (hparted : Parted F h a m m') (ha : a < h.frames.size) :
    m.Agree h m' := by
  obtain ⟨W, hle, hgood, hleft, hright, -, hcurrent, hcurrent', houtput, hanswered⟩ := hparted
  have himage : ∀ b < h.frames.size, W.image b = b := hle.image
  constructor
  case output => exact houtput
  case answered => exact hanswered
  case current => rw [hcurrent', hcurrent, himage a ha]
  case frames =>
    intro b hb
    obtain ⟨hbindings, henclosing⟩ :=
      hgood.kept b (Nat.lt_of_lt_of_le hb hle.frames) (hle.bypassed b hb).mp
    rw [himage b hb] at hbindings henclosing
    rw [hleft, hright, hbindings, henclosing]
    refine ⟨rfl, ?_⟩
    cases hlink : (W.left.frame b).enclosing with
    | none => rfl
    | some c => exact congrArg some (himage c (Nat.lt_trans (hgood.linked b c hlink) hb))
  case functions => rw [hleft, hright, hgood.functions]
  case function =>
    intro f hf
    obtain ⟨hold, hold'⟩ := hle.function f hf
    rw [hleft, hright, hold, hold']
    rfl
  case classes => rw [hleft, hright, hgood.classes]
  case instances => rw [hleft, hright, hgood.instances]

/-- Actions in tandem end alike and do not bring the machines together again. -/
theorem Parted.run {α : Type} {m m' : Machine} {x x' : Eval α} (hparted : Parted F h a m m')
    (ha : a < h.frames.size)
    (hx : ∀ W, (alone h).Le W → W.Good F → Tandem F W a x x' fun _ v v' => v' = v) :
    EndAlike SameFault h (x m) (x' m') ∧ Parted F h a (machineAfter x m) (machineAfter x' m') := by
  obtain ⟨W, hle, hgood, hstep⟩ := hparted
  have hout := hx W hle hgood m m' hstep
  unfold machineAfter
  generalize x m = r at hout
  generalize x' m' = r' at hout
  cases hout with
  | ok hle' hgood' hstep' hv =>
      subst hv
      have hparted' : Parted F h a _ _ := ⟨_, hle.trans hle', hgood', hstep'⟩
      exact ⟨.ok (hparted'.agree ha), hparted'⟩
  | error hle' hgood' hstep' hfault =>
      have hparted' : Parted F h a _ _ := ⟨_, hle.trans hle', hgood', hstep'⟩
      exact ⟨.error hfault (hparted'.agree ha), hparted'⟩

/-- Code that has nothing to pass in a frame that was there before. -/
theorem runs_old {b : Address} {k : Identity} {p : Path} {names : List String} {us : List Use}
    (hle : (alone h).Le W) (hgood : W.Good F) (hb : b < h.frames.size)
    (hknown : ∀ u ∈ us, F k none u) : W.Runs F b k none p names us := by
  have hsize := Nat.lt_of_lt_of_le hb hle.frames
  refine ⟨⟨hsize, nofun, ?_⟩, ?_, hknown⟩
  · intro i f hf
    have hlt := Nat.lt_of_le_of_lt (Heap.mem_chain_le hgood.linked (List.mem_of_getElem? hf)) hb
    exact ⟨fun hpassed => ((hle.bypassed f hlt).mp hpassed).elim, nofun⟩
  · exact fun hpassed => ((hle.bypassed b hb).mp hpassed).elim

/-- One tree on both sides, in a frame that was there before. -/
theorem Tandem.chunk {σ σ' : Setting} {b : Address} {ch : Chunk} (htables : Tables F σ σ')
    (hnatives : σ'.natives = σ.natives) (hfaithful : ∀ native ∈ σ.natives, native.Faithful)
    (fuel : Nat) (hle : (alone h).Le W) (hgood : W.Good F) (hb : b < h.frames.size)
    (hspelled : ch.Spelled) (hknown : ∀ u ∈ ch.uses, F 0 none u) :
    Tandem F W b (ch.watched idle σ fuel) (ch.watched idle σ' fuel) fun _ v v' => v' = v := by
  obtain ⟨heval, hexec⟩ := evaluates_executes htables hnatives hfaithful fuel
  cases ch with
  | expression e =>
      have hruns : W.Runs F b 0 none [] [] (e.uses []) := runs_old hle hgood hb hknown
      have hvalue := heval W b 0 none [] e hgood hspelled hruns
      rw [e.relabel_zero] at hvalue
      simp only [Chunk.watched, evaluateWatched_idle]
      refine hvalue.map ?_
      rintro W' - - v v' ⟨rfl, -⟩
      rfl
  | program ss =>
      simp only [Chunk.watched, interpretWatched_idle]
      refine Tandem.map (R := fun _ _ _ => True) ?_ fun _ _ _ _ _ _ => rfl
      have hwhole : ∀ (ss : List Stmt) (p : Path) (W : Bypass), (alone h).Le W → W.Good F →
          SpelledStmts ss → (∀ u ∈ usesStmts ss p, F 0 none u) →
            Tandem F W b (interpret σ fuel ss) (interpret σ' fuel ss) fun _ _ _ => True := by
        intro ss
        induction ss with
        | nil => exact fun _ _ _ hgood _ _ => (flush hgood).mono fun _ _ _ _ _ _ => trivial
        | cons s rest ih =>
            intro p W hle hgood hspelled hknown
            obtain ⟨hs, hrest⟩ := List.forall_mem_append.mp hknown
            have hstmt := hexec W b 0 none p s hgood hspelled.1 (runs_old hle hgood hb hs)
            rw [s.relabel_zero] at hstmt
            refine hstmt.bind fun W' hle' hgood' _ _ _ => ?_
            exact ih _ W' (hle.trans hle') hgood' hspelled.2 hrest
      exact hwhole ss [] W hle hgood hspelled hknown

end Bypass

/-! ### Tables that are extended -/

namespace Scope

/-- What is known of a use that two tables have, whatever is entered later for other identities. -/
def lasting (fresh : Identity → Prop) (T T' : Distances) : Knowledge :=
  fun k skip u => ∀ entries : Distances, (∀ entry ∈ entries, fresh entry.1) →
    u.Follows (entries ++ T) (entries ++ T') k skip

variable {fresh : Identity → Prop} {T T' : Distances} {k : Identity} {skip : Option Nat} {u : Use}

theorem lookup_entries_append {entries : Distances} {id : Identity} (hid : ¬fresh id)
    (hentries : ∀ entry ∈ entries, fresh entry.1) (T : Distances) :
    (entries ++ T).lookup id = T.lookup id := by
  have hnone : entries.lookup id = none :=
    lookup_of_not_mem fun entry hentry heq => hid (heq ▸ hentries entry hentry)
  rw [List.lookup_append, hnone, Option.none_or]

theorem lasting_of_follows (h : u.Follows T T' k skip) (hid : ¬fresh u.ref.id)
    (hid' : ¬fresh (u.ref.id + k)) : lasting fresh T T' k skip u := by
  intro entries hentries
  have hleft := lookup_entries_append hid hentries T
  have hright := lookup_entries_append hid' hentries T'
  constructor
  case entry => rw [hleft, hright, h.entry]
  case around => exact h.around
  case misses => rw [hleft]; exact h.misses
  case receiver => rw [hleft]; exact h.receiver

/-- What two tables have in common they always will. -/
theorem lasting_of_lookup (h : T'.lookup u.ref.id = T.lookup u.ref.id) :
    lasting fresh T T' 0 none u := by
  intro entries hentries
  apply Use.follows_none
  have hid : u.ref.id + 0 = u.ref.id := UInt64.add_zero _
  rw [hid, List.lookup_append, List.lookup_append, h]

end Scope

/-! ### Sequels -/

section

variable {natives : List Native} {T T' : Distances} {h : Heap} {a : Address} {firstId : Identity}
  {taken : List Identity} {m m' : Machine} {q : Sequel} {qs : List Sequel}

/-- An identity that is free once some are taken. -/
def Identity.Fresh (firstId : Identity) (taken : List Identity) (id : Identity) : Prop :=
  firstId ≤ id ∧ id ∉ taken

/-- Machines that have parted answer a sequel alike. -/
theorem Bypass.Parted.sequel (hnatives : ∀ native ∈ natives, native.Faithful)
    (hT : ∀ id ∉ taken, T'.lookup id = T.lookup id) (ha : a < h.frames.size)
    (hparted : Parted (lasting (Identity.Fresh firstId taken) T T') h a m m')
    (hq : q.Fits h firstId taken) :
    EndAlike SameFault h (q.run natives T m) (q.run natives T' m') ∧
      Parted (lasting (Identity.Fresh firstId taken) T T') h a (machineAfter (q.run natives T) m)
        (machineAfter (q.run natives T') m') := by
  refine hparted.run ha fun W hle hgood => ?_
  have himage : W.image q.frame = q.frame := hle.image q.frame hq.frame
  have htables : Tables (lasting (Identity.Fresh firstId taken) T T') ⟨natives, q.entries ++ T⟩
      ⟨natives, q.entries ++ T'⟩ := fun k skip u hu => hu q.entries hq.entries
  have hknown : ∀ u ∈ q.chunk.uses, lasting (Identity.Fresh firstId taken) T T' 0 none u := by
    intro u hu
    have href : u.ref ∈ q.chunk.references := q.chunk.references_uses ▸ List.mem_map_of_mem hu
    exact lasting_of_lookup (hT _ (hq.references u.ref href))
  have hchunk := Tandem.chunk htables rfl hnatives q.fuel hle hgood hq.frame hq.spelled hknown
  have hrun := Tandem.inFrame (a := a) (Nat.lt_of_lt_of_le hq.frame hle.frames) hchunk
  rwa [himage] at hrun

theorem Bypass.Parted.after (hnatives : ∀ native ∈ natives, native.Faithful)
    (hT : ∀ id ∉ taken, T'.lookup id = T.lookup id) (ha : a < h.frames.size)
    (hparted : Parted (lasting (Identity.Fresh firstId taken) T T') h a m m')
    (hqs : ∀ q ∈ qs, q.Fits h firstId taken) :
    Parted (lasting (Identity.Fresh firstId taken) T T') h a (Sequel.after natives T qs m)
      (Sequel.after natives T' qs m') := by
  induction qs generalizing m m' with
  | nil => exact hparted
  | cons q qs ih =>
      obtain ⟨hq, hqs⟩ := List.forall_mem_cons.mp hqs
      exact ih (hparted.sequel hnatives hT ha hq).2 hqs

end

end LoxLang
