import Mathlib.Data.List.Induction
import LoxLang.Proofs.Session.Surroundings

/-!
Runs that keep track of surroundings. What such a run comes to has surroundings, if that is so of the
nodes that it comes to in the frame that it begins in, and the functions that it makes are recorded. It
is shown of one construct at a time: a block and a call open a frame and tell the surroundings of what
runs there; a function that is made is recorded where its declaration is come to. Programs keep track by
induction on the fuel, and a machine does in the course of its jobs.
-/

namespace LoxLang

open Scope Eval

section

variable {natives : List Native} {m p q q' r : Machine} {js : List Job} {j : Job} {node : Node}
  {α β : Type}

/-! ### Recording -/

/-- From one machine to the next, all functions stay recorded. -/
def Machine.StaysRecorded (natives : List Native) (m : Machine) (js : List Job) (q r : Machine) : Prop :=
  Recorded natives m js q.heap → Recorded natives m js r.heap

namespace Machine.StaysRecorded

variable {x : Eval α} {f : α → Eval β}

theorem lasting : Lasting (StaysRecorded natives m js) :=
  ⟨fun _ => id, fun h h' hq => h' (h hq)⟩

theorem bind (hx : StaysRecorded natives m js q (machineAfter x q))
    (hf : ∀ v q', x q = .ok v q' → StaysRecorded natives m js q' (machineAfter (f v) q')) :
    StaysRecorded natives m js q (machineAfter (x >>= f) q) := by
  change StaysRecorded natives m js q (machineAfter (EStateM.bind x f) q)
  unfold machineAfter EStateM.bind at *
  cases hrun : x q with
  | error fault n =>
      rw [hrun] at hx
      exact hx
  | ok v n =>
      rw [hrun] at hx
      exact lasting.trans hx (hf v n hrun)

theorem define (a : Address) (name : String) (v : Value) :
    Leads (StaysRecorded natives m js) (changeHeap (Heap.define a name v)) :=
  fun _ hq => hq.define a name v

theorem defineHere (name : String) (v : Value) :
    Leads (StaysRecorded natives m js) (defineHere name v) :=
  lasting.bind lasting.getCurrent fun a => define a name v

theorem assignTo (σ : Setting) (ref : Reference) (v : Value) :
    Leads (StaysRecorded natives m js) (assignTo σ ref v) :=
  lasting.bind (lasting.locate ref) fun a => define a _ v

theorem setField (i : Address) (name : String) (v : Value) :
    Leads (StaysRecorded natives m js) (changeHeap (Heap.setField i name v)) :=
  fun _ hq => hq.of_functions rfl fun _ _ => ⟨rfl, rfl⟩

theorem consult : Leads (StaysRecorded natives m js) consult :=
  fun _ => id

theorem newFrame (o : Frame) : Leads (StaysRecorded natives m js) (newFrame o) :=
  fun _ hq => hq.addFrame o

theorem newInstance (o : Instance) : Leads (StaysRecorded natives m js) (newInstance o) :=
  fun _ hq => hq.of_functions rfl fun _ _ => ⟨rfl, rfl⟩

theorem newClass (o : ClassObject) : Leads (StaysRecorded natives m js) (newClass o) :=
  fun _ hq => hq.of_functions rfl fun _ _ => ⟨rfl, rfl⟩

theorem bindMethod (method i : Address) :
    Leads (StaysRecorded natives m js) (bindMethod method (.object i)) :=
  fun _ hq => hq.withBound method i

theorem boundMethod (method i : Address) : Leads (StaysRecorded natives m js)
    (do return Value.function (← Eval.bindMethod method (.object i))) :=
  lasting.bind (bindMethod method i) fun _ => lasting.pure _

theorem property (i : Address) (name : Token) :
    Leads (StaysRecorded natives m js) (property i name) := by
  refine lasting.bind lasting.getHeap fun h => ?_
  dsimp only
  split
  · exact lasting.pure _
  · split
    · exact boundMethod _ i
    · exact lasting.throw _

theorem superMethod (σ : Setting) (ref : Reference) (method : Token) :
    Leads (StaysRecorded natives m js) (superMethod σ ref method) := by
  unfold Eval.superMethod
  dsimp only
  split
  · exact lasting.throw _
  · exact lasting.throw _
  · refine lasting.bind lasting.get fun n => ?_
    refine lasting.bind (lasting.onLine _ _) fun superclass => ?_
    refine lasting.bind (lasting.onLine _ _) fun receiver => ?_
    split
    · split
      · exact boundMethod _ _
      · exact lasting.throw _
    · exact lasting.throw _

/-- A function that is made is recorded, if the node that makes it has surroundings. -/
theorem closure {d : FunctionDecl} {fs : List (Origin × Address)}
    (hmaker : Comes natives m js j node q) (hfs : Surrounded natives m js node q fs)
    (hmakes : node.Makes q (q.heap.addFunction ⟨d, q.current, false⟩) q.heap.functions.size []) :
    StaysRecorded natives m js q (machineAfter (closure d) q) :=
  fun hq => hq.addFunction (.inr ⟨j, node, q, [], fs, hmaker, hmakes, hfs⟩)

/-- Methods are made one after the other, and close over the current frame. -/
theorem methodTable {table : Bindings Address} {ds : List FunctionDecl} {n : Nat}
    (hsize : q.heap.functions.size = n)
    (hmade : ∀ i d h, ds[i]? = some d → h.function (n + i) = ⟨d, q.current, d.isInitializer⟩ →
      h.frames = q.heap.frames → Made natives m js h (n + i)) :
    StaysRecorded natives m js q (machineAfter (methodTable table ds) q) := by
  induction ds generalizing q table n with
  | nil => exact lasting.pure table q
  | cons d ds ih =>
      refine bind (lasting.getCurrent q) ?_
      rintro a q₁ ⟨⟩
      refine bind (fun hq => hq.addFunction (.inr ?_)) ?_
      · subst hsize
        exact hmade 0 d _ rfl (Heap.addFunction_new _ _) rfl
      · rintro f q₂ ⟨⟩
        refine ih (n := n + 1) ?_ fun i e h he hfunction hframes => ?_
        · rw [← hsize]
          exact Heap.functions_size_addFunction _ _
        · rw [Nat.add_assoc, Nat.add_comm 1] at hfunction ⊢
          exact hmade (i + 1) e h he hfunction hframes

theorem inFrame {x : Eval α} {b : Address}
    (hx : StaysRecorded natives m js { q with current := b } (machineAfter x { q with current := b })) :
    StaysRecorded natives m js q (machineAfter (inFrame b x) q) := by
  unfold machineAfter Eval.inFrame at *
  cases hrun : x { q with current := b } <;>
  · rw [hrun] at hx
    exact hx

/-- A class statement makes the methods where evaluation comes to it. -/
theorem defineClass {name : Token} {superclass : Option Reference} {methods : List FunctionDecl}
    {fs : List (Origin × Address)} (σ : Setting)
    (hmaker : Comes natives m js j (.stmt (.classDecl name superclass methods)) q)
    (hfs : Surrounded natives m js (.stmt (.classDecl name superclass methods)) q fs) :
    StaysRecorded natives m js q (machineAfter (defineClass σ name superclass methods) q) := by
  rw [defineClass_eq]
  refine bind (lasting.superclassOf superclass q) fun up q₁ hup => ?_
  obtain ⟨rfl, hsome⟩ := superclassOf_ok hup
  refine bind (defineHere _ _ _) ?_
  rintro ⟨⟩ q₂ ⟨⟩
  refine bind ?_ fun table q₃ _ => ?_
  · have hsize := Heap.frames_size_define q₁.heap (a := q₁.current) name.lexeme .nil
    cases up with
    | none =>
        cases superclass with
        | some ref => cases hsome
        | none =>
            exact methodTable rfl fun i d h hd hfunction _ =>
              ⟨j, _, q₁, [], fs, hmaker, .method hd rfl hfunction, hfs⟩
    | some s =>
        obtain ⟨ref, rfl⟩ : ∃ ref, superclass = some ref := Option.isSome_iff_exists.mp hsome.symm
        refine bind (lasting.getCurrent _) ?_
        rintro a q₃ ⟨⟩
        refine bind (newFrame _ _) ?_
        rintro b q₄ ⟨⟩
        refine inFrame (methodTable rfl fun i d h hd hfunction hframes => ?_)
        refine ⟨j, _, q₁, _, fs, hmaker, .inherited hd rfl hfunction hsize ?_ ?_, hfs⟩
        all_goals
          rw [Heap.frame, hframes]
          exact congrArg _ (Heap.addFrame_new _ _)
  · refine lasting.bind (newClass _) (fun c => ?_) q₃
    refine lasting.bind lasting.getHeap fun h => lasting.bind lasting.getCurrent fun a => ?_
    exact lasting.bind (lasting.onLine _ _) fun f => define f _ _

end Machine.StaysRecorded

/-! ### Runs -/

namespace Machine

/-- A run begins in surroundings: it belongs to a job, and what it comes to in the frame in which it begins
has surroundings. -/
def Begins (natives : List Native) (m : Machine) (js : List Job) (j : Job)
    (x : (Node → Eval Unit) → Eval α) (q : Machine) : Prop :=
  ∀ node p, Reaches x q node p → Comes natives m js j node p ∧
    (p.current = q.current → ∃ fs, Surrounded natives m js node p fs)

/-- A run that begins in surroundings, where all functions are recorded, keeps it so. -/
def Tracks (natives : List Native) (m : Machine) (js : List Job) (j : Job)
    (x : (Node → Eval Unit) → Eval α) (q : Machine) : Prop :=
  Begins natives m js j x q → Recorded natives m js q.heap →
    (∀ node p, Reaches x q node p → ∃ fs, Surrounded natives m js node p fs) ∧
      Recorded natives m js (machineAfter (x idle) q).heap

namespace Tracks

variable {x : (Node → Eval Unit) → Eval α} {f : (Node → Eval Unit) → α → Eval β}

theorem plain {x : Eval α} (hx : StaysRecorded natives m js q (machineAfter x q)) :
    Tracks natives m js j (fun _ => x) q :=
  fun _ hq => ⟨fun _ _ h => (h.false fun _ => rfl).elim, hx hq⟩

theorem bind (hwatched : Watched x) (hx : Tracks natives m js j x q)
    (hf : ∀ v q', x idle q = .ok v q' → Tracks natives m js j (fun see => f see v) q') :
    Tracks natives m js j (fun see => x see >>= f see) q := by
  intro hbegins hq
  obtain ⟨hreaches, hq'⟩ := hx (fun node p h => hbegins node p h.left) hq
  have hrest : ∀ v q', x idle q = .ok v q' → (∀ node p, Reaches (fun see => f see v) q' node p →
      ∃ fs, Surrounded natives m js node p fs) ∧
        Recorded natives m js (machineAfter (f idle v) q').heap := by
    intro v q' hrun
    refine hf v q' hrun (fun node p h => ?_) ?_
    · rw [hwatched.current_of_ok hrun]
      exact hbegins node p (hwatched.right hrun h)
    · unfold machineAfter at hq'
      rw [hrun] at hq'
      exact hq'
  constructor
  · intro node p h
    rcases hwatched.cases_bind h with h | ⟨v, q', hrun, h⟩
    · exact hreaches node p h
    · exact (hrest v q' hrun).1 node p h
  · exact StaysRecorded.bind (fun _ => hq') (fun v q' hrun _ => (hrest v q' hrun).2) hq

theorem map {g : α → β} (hwatched : Watched x) (hx : Tracks natives m js j x q) :
    Tracks natives m js j (fun see => g <$> x see) q := by
  simp only [map_eq_pure_bind]
  exact bind hwatched hx fun v q' _ => plain (StaysRecorded.lasting.pure (g v) q')

/-- A node that is seen is come to, in surroundings. -/
theorem seen (hx : ∀ fs, Comes natives m js j node q → Surrounded natives m js node q fs →
    Tracks natives m js j x q) : Tracks natives m js j (fun see => do see node; x see) q := by
  intro hbegins hq
  obtain ⟨hcomes, hsurrounded⟩ := hbegins node q fun fault => ⟨q, Grammar.bind_of_error stopAt_self⟩
  obtain ⟨fs, hfs⟩ := hsurrounded rfl
  refine bind (.see node) (fun _ _ => ⟨?_, hq⟩) ?_ hbegins hq
  · intro node' p h
    obtain ⟨rfl, rfl⟩ := reaches_see.mp h
    exact ⟨fs, hfs⟩
  · rintro ⟨⟩ q' ⟨⟩
    exact hx fs hcomes hfs

theorem inFrame {b : Address}
    (hb : ∀ node p, Comes natives m js j node p → Reaches x { q with current := b } node p →
      p.current = b → ∃ fs, Surrounded natives m js node p fs)
    (hx : Tracks natives m js j x { q with current := b }) :
    Tracks natives m js j (fun see => inFrame b (x see)) q := by
  intro hbegins hq
  obtain ⟨hreaches, hq'⟩ := hx (fun node p h => by
    obtain ⟨hcomes, -⟩ := hbegins node p (reaches_inFrame.mpr h)
    exact ⟨hcomes, hb node p hcomes h⟩) hq
  exact ⟨fun node p h => hreaches node p (reaches_inFrame.mp h),
    StaysRecorded.inFrame (fun _ => hq') hq⟩

/-! ### Calls -/

section

variable {n line : Nat} {c g : Address} {v : Value} {vs : List Value}
  (hnatives : ∀ native ∈ natives, native.Conserves) (hobeys : ∀ j ∈ js, j.chunk.Obeys .accepted)
  (hready : m.Ready .accepted)
  (hrun : ∀ ss q, Tracks natives m js j
    (fun see => executeAll (executeWatched see (j.setting natives) n) ss) q)

include hnatives hobeys hready hrun

/-- The body of a call has the surroundings of the declaration, behind the frame of the call. -/
theorem callBody (hcalls : Calls natives m js (j.setting natives) n (.function g) vs line q) :
    Tracks natives m js j
      (fun see => callBody (executeAll (executeWatched see (j.setting natives) n)) g vs) q := by
  intro hbegins hq
  obtain ⟨-, hsound, hg, -⟩ := hcalls.sound hnatives hobeys hready
  refine bind (.plain Restores.steady.getHeap) (plain (StaysRecorded.lasting.getHeap q)) ?_ hbegins hq
  rintro h q₁ ⟨⟩
  refine bind (.plain (Restores.steady.allocate _ _)) (plain (StaysRecorded.newFrame _ _)) ?_
  rintro b q₂ ⟨⟩
  refine inFrame (fun node p hcomes hruns hcurrent => ?_) (hrun _ _)
  rcases hq g hg.size with hreceiver | ⟨i, maker, r, between, fs, hmaker, hmakes, hfs⟩
  · obtain ⟨c, method, o, hbound⟩ := (hsound.functions g hg.size).bound Law.this_unwritten hreceiver
    obtain ⟨_, hmethod⟩ := hbound.method.method hsound
    rcases hq method hmethod.size with hagain | ⟨i, maker, r, between, fs, hmaker, hmakes, hfs⟩
    · cases hmethod.closure.not_receiver.symm.trans hagain
    · exact ⟨_, .method hcomes hcalls hruns hcurrent hbound hmaker hmakes hfs⟩
  · exact ⟨_, .call hcomes hcalls hruns hcurrent hmaker hmakes hfs⟩

theorem callFunction (hcalls : Calls natives m js (j.setting natives) n (.function g) vs line q) :
    Tracks natives m js j
      (fun see => callFunction (executeAll (executeWatched see (j.setting natives) n)) g vs line) q := by
  simp only [callFunction_eq]
  refine bind (.plain Restores.steady.getHeap) (plain (StaysRecorded.lasting.getHeap q)) ?_
  rintro h q₁ ⟨⟩
  refine bind (.callBody (.executedAll _ n) g vs) (callBody hnatives hobeys hready hrun hcalls) ?_
  intro flow q₂ _
  split
  · exact plain (StaysRecorded.lasting.bind StaysRecorded.lasting.getHeap
      (fun _ => StaysRecorded.lasting.onLine _ _) q₂)
  · cases flow <;> exact plain (StaysRecorded.lasting.pure _ q₂)

theorem instantiate (hcalls : Calls natives m js (j.setting natives) n (.classRef c) vs line q) :
    Tracks natives m js j
      (fun see => instantiate (executeAll (executeWatched see (j.setting natives) n)) c vs line) q := by
  refine bind (.plain (Restores.steady.allocate _ _)) (plain (StaysRecorded.newInstance _ q)) ?_
  intro i q₁ hnew
  refine bind (.plain Restores.steady.getHeap) (plain (StaysRecorded.lasting.getHeap q₁)) ?_
  rintro h q₂ ⟨⟩
  cases hfound : q₁.heap.findMethod? c FunctionDecl.initializerName with
  | none => exact plain (StaysRecorded.lasting.pure _ q₁)
  | some method =>
      refine bind (.plain (Restores.steady.bindMethod _ _)) (plain (StaysRecorded.bindMethod _ i q₁)) ?_
      intro f q₂ hbind
      have hmade : Calls natives m js (j.setting natives) n (.function f) vs line q₂ := by
        refine .made hcalls ?_ ((Grammar.bind_of_ok hnew).trans hbind)
        cases hnew
        have hclasses : (q.heap.addInstance ⟨c, []⟩).classes = q.heap.classes := rfl
        exact (Heap.findMethod?_congr hclasses c _).symm.trans hfound
      refine bind (.callFunction (.executedAll _ n) f vs line) (callFunction hnatives hobeys hready hrun hmade) ?_
      exact fun _ q₃ _ => plain (StaysRecorded.lasting.pure _ q₃)

theorem enter (hcalls : Calls natives m js (j.setting natives) n v vs line q) :
    Tracks natives m js j (fun see => enter (j.setting natives)
      (executeAll (executeWatched see (j.setting natives) n)) v vs line) q := by
  cases v with
  | function f => exact callFunction hnatives hobeys hready hrun hcalls
  | classRef c => exact instantiate hnatives hobeys hready hrun hcalls
  | native i =>
      simp only [Eval.enter]
      refine plain ?_
      split
      · refine StaysRecorded.lasting.bind StaysRecorded.consult (fun sight => ?_) q
        split
        · exact StaysRecorded.lasting.pure _
        · exact StaysRecorded.lasting.throw _
      · exact StaysRecorded.lasting.throw _ q
  | _ => exact plain (StaysRecorded.lasting.throw _ q)

theorem invoke (hcalls : q.heap.arity? natives v = some vs.length →
      Calls natives m js (j.setting natives) n v vs line q) :
    Tracks natives m js j (fun see => invoke (j.setting natives)
      (executeAll (executeWatched see (j.setting natives) n)) v vs line) q := by
  refine bind (.plain Restores.steady.getHeap) (plain (StaysRecorded.lasting.getHeap q)) ?_
  rintro h q₁ ⟨⟩
  cases harity : q.heap.arity? (j.setting natives).natives v with
  | none => exact plain (StaysRecorded.lasting.throw _ q)
  | some k =>
      dsimp only
      split
      case isTrue hlength =>
        exact enter hnatives hobeys hready hrun (hcalls (hlength ▸ harity))
      case isFalse => exact plain (StaysRecorded.lasting.throw _ q)

end

/-! ### Nodes -/

section

variable {n : Nat} {fs : List (Origin × Address)}
  (heval : ∀ e q, Tracks natives m js j (fun see => evaluateWatched see (j.setting natives) n e) q)

include heval in
theorem evaluateAll (es : List Expr) (q : Machine) : Tracks natives m js j
    (fun see => evaluateAll (evaluateWatched see (j.setting natives) n) es) q := by
  induction es generalizing q with
  | nil => exact plain (StaysRecorded.lasting.pure [] q)
  | cons e es ih =>
      refine bind (.evaluated _ n e) (heval e q) fun v q₁ _ => ?_
      refine bind (.evaluateAll (.evaluated _ n) es) (ih q₁) fun vs q₂ _ => ?_
      exact plain (StaysRecorded.lasting.pure _ q₂)

variable (hexec : ∀ s q, Tracks natives m js j
  (fun see => executeWatched see (j.setting natives) n s) q)

include hexec in
theorem executeAll (ss : List Stmt) (q : Machine) : Tracks natives m js j
    (fun see => executeAll (executeWatched see (j.setting natives) n) ss) q := by
  induction ss generalizing q with
  | nil => exact plain (StaysRecorded.lasting.pure _ q)
  | cons s ss ih =>
      refine bind (.executed _ n s) (hexec s q) fun flow q₁ _ => ?_
      cases flow with
      | normal => exact ih q₁
      | returned v => exact plain (StaysRecorded.lasting.pure _ q₁)

theorem repeatWhile {test : (Node → Eval Unit) → Eval Bool} {body : (Node → Eval Unit) → Eval Flow}
    (htest : Watched test) (hbody : Watched body) (htracksTest : ∀ q, Tracks natives m js j test q)
    (htracksBody : ∀ q, Tracks natives m js j body q) (k : Nat) (q : Machine) :
    Tracks natives m js j (fun see => repeatWhile (test see) (body see) k) q := by
  induction k generalizing q with
  | zero => exact plain (StaysRecorded.lasting.throw _ q)
  | succ k ih =>
      refine bind htest (htracksTest q) fun b q₁ _ => ?_
      cases b with
      | false => exact plain (StaysRecorded.lasting.pure _ q₁)
      | true =>
          refine bind hbody (htracksBody q₁) fun flow q₂ _ => ?_
          cases flow with
          | normal => exact ih q₂
          | returned v => exact plain (StaysRecorded.lasting.pure _ q₂)

include heval in
theorem optionalValue (e : Option Expr) (q : Machine) : Tracks natives m js j
    (fun see => optionalValue (evaluateWatched see (j.setting natives) n) e) q := by
  cases e with
  | none => exact plain (StaysRecorded.lasting.pure _ q)
  | some e => exact heval e q

/-- The statements of a block have the surroundings of the block, behind a frame for the block. -/
theorem block {body : List Stmt} (hblock : Comes natives m js j (.stmt (.block body)) q)
    (hfs : Surrounded natives m js (.stmt (.block body)) q fs)
    (hbody : ∀ q, Tracks natives m js j
      (fun see => Eval.executeAll (executeWatched see (j.setting natives) n) body) q) :
    Tracks natives m js j (fun see => do
      let here ← getCurrent
      let frame ← newFrame ⟨[], some here, .block body⟩
      Eval.inFrame frame (Eval.executeAll (executeWatched see (j.setting natives) n) body)) q := by
  refine bind (.plain Restores.steady.getCurrent) (plain (StaysRecorded.lasting.getCurrent q)) ?_
  rintro here q₁ ⟨⟩
  refine bind (.plain (Restores.steady.allocate _ _)) (plain (StaysRecorded.newFrame _ q)) ?_
  rintro b q₂ ⟨⟩
  refine inFrame (fun node p hcomes hruns hcurrent => ?_) (hbody _)
  exact ⟨_, .block hcomes hblock hruns hcurrent hfs⟩

include heval

theorem expression (hnatives : ∀ native ∈ natives, native.Conserves)
    (hobeys : ∀ j ∈ js, j.chunk.Obeys .accepted) (hready : m.Ready .accepted)
    (hrun : ∀ ss q, Tracks natives m js j
      (fun see => Eval.executeAll (executeWatched see (j.setting natives) n) ss) q) {e : Expr}
    (hcomes : Comes natives m js j (.expr e) q) (hfs : Surrounded natives m js (.expr e) q fs) :
    Tracks natives m js j (fun see => expression (j.setting natives)
      (evaluateWatched see (j.setting natives) n)
      (Eval.invoke (j.setting natives) (Eval.executeAll (executeWatched see (j.setting natives) n))) e)
      q := by
  have hevaluated := Watched.evaluated (j.setting natives) n
  cases e with
  | literal value => exact plain (StaysRecorded.lasting.pure _ q)
  | group inner => exact heval inner q
  | unary operator right =>
      refine bind (hevaluated right) (heval right q) fun v q₁ _ => ?_
      exact plain (StaysRecorded.lasting.onLine _ _ q₁)
  | binary left operator right =>
      refine bind (hevaluated left) (heval left q) fun v q₁ _ => ?_
      refine bind (hevaluated right) (heval right q₁) fun w q₂ _ => ?_
      exact plain (StaysRecorded.lasting.onLine _ _ q₂)
  | logical left operator right =>
      refine bind (hevaluated left) (heval left q) fun v q₁ _ => ?_
      split
      · exact plain (StaysRecorded.lasting.pure v q₁)
      · exact heval right q₁
  | ident ref | this ref => exact plain (StaysRecorded.lasting.lookUp ref q)
  | assign ref value =>
      refine bind (hevaluated value) (heval value q) fun v q₁ _ => plain ?_
      exact StaysRecorded.lasting.bind (StaysRecorded.assignTo _ ref v)
        (fun _ => StaysRecorded.lasting.pure v) q₁
  | call callee paren arguments =>
      refine bind (hevaluated callee) (heval callee q) fun f q₁ hcallee => ?_
      refine bind (.evaluateAll hevaluated arguments) (evaluateAll heval arguments q₁) ?_
      intro vs q₂ harguments
      rw [evaluateWatched_idle] at hcallee harguments
      exact invoke hnatives hobeys hready hrun (.written hcomes hcallee harguments)
  | function decl =>
      exact plain (StaysRecorded.closure hcomes hfs (.expression rfl (Heap.addFunction_new _ _)))
  | get object name =>
      refine bind (hevaluated object) (heval object q) fun v q₁ _ => ?_
      cases v with
      | object i => exact plain (StaysRecorded.property i name q₁)
      | _ => exact plain (StaysRecorded.lasting.throw _ q₁)
  | set object name value =>
      refine bind (hevaluated object) (heval object q) fun v q₁ _ => ?_
      cases v with
      | object i =>
          refine bind (hevaluated value) (heval value q₁) fun w q₂ _ => plain ?_
          exact StaysRecorded.lasting.bind (StaysRecorded.setField i _ w)
            (fun _ => StaysRecorded.lasting.pure w) q₂
      | _ => exact plain (StaysRecorded.lasting.throw _ q₁)
  | super ref method => exact plain (StaysRecorded.superMethod _ ref method q)

include hexec in
theorem statement {s : Stmt} (hcomes : Comes natives m js j (.stmt s) q)
    (hfs : Surrounded natives m js (.stmt s) q fs) :
    Tracks natives m js j (fun see => statement (j.setting natives) n
      (evaluateWatched see (j.setting natives) n) (executeWatched see (j.setting natives) n) s) q := by
  have hevaluated := Watched.evaluated (j.setting natives) n
  cases s with
  | expr value =>
      refine bind (hevaluated value) (heval value q) fun v q₁ _ => ?_
      exact plain (StaysRecorded.lasting.pure _ q₁)
  | print value =>
      refine bind (hevaluated value) (heval value q) fun v q₁ _ => plain ?_
      exact StaysRecorded.lasting.bind (StaysRecorded.lasting.printValue (fun _ _ => id) v)
        (fun _ => StaysRecorded.lasting.pure _) q₁
  | var name initializer =>
      refine bind (.optionalValue hevaluated initializer) (optionalValue heval initializer q) ?_
      refine fun v q₁ _ => plain ?_
      exact StaysRecorded.lasting.bind (StaysRecorded.defineHere _ v)
        (fun _ => StaysRecorded.lasting.pure _) q₁
  | block body => exact block hcomes hfs fun q => executeAll hexec body q
  | branch condition thenBranch elseBranch =>
      refine bind (hevaluated condition) (heval condition q) fun v q₁ _ => ?_
      split
      · exact hexec thenBranch q₁
      · cases elseBranch with
        | some s => exact hexec s q₁
        | none => exact plain (StaysRecorded.lasting.pure _ q₁)
  | loop condition body =>
      exact repeatWhile (hevaluated condition).map (.executed _ n body)
        (fun q => map (hevaluated condition) (heval condition q)) (hexec body) n q
  | function decl =>
      refine bind (.plain (Restores.steady.closure decl)) (plain ?_) fun v q₁ _ => plain ?_
      · exact StaysRecorded.closure hcomes hfs (.statement rfl (Heap.addFunction_new _ _))
      · exact StaysRecorded.lasting.bind (StaysRecorded.defineHere _ v)
          (fun _ => StaysRecorded.lasting.pure _) q₁
  | ret keyword value =>
      refine bind (.optionalValue hevaluated value) (optionalValue heval value q) fun v q₁ _ => ?_
      exact plain (StaysRecorded.lasting.pure _ q₁)
  | classDecl name superclass methods =>
      refine plain (StaysRecorded.bind ?_ fun _ q₁ _ => StaysRecorded.lasting.pure _ q₁)
      exact StaysRecorded.defineClass _ hcomes hfs

end

/-! ### Programs -/

section

variable (hnatives : ∀ native ∈ natives, native.Conserves)
  (hobeys : ∀ j ∈ js, j.chunk.Obeys .accepted) (hready : m.Ready .accepted)

include hnatives hobeys hready

theorem evaluate_execute (n : Nat) :
    (∀ e q, Tracks natives m js j (fun see => evaluateWatched see (j.setting natives) n e) q) ∧
      ∀ s q, Tracks natives m js j (fun see => executeWatched see (j.setting natives) n s) q := by
  induction n with
  | zero =>
      exact ⟨fun _ q => plain (StaysRecorded.lasting.throw _ q),
        fun _ q => plain (StaysRecorded.lasting.throw _ q)⟩
  | succ n ih =>
      obtain ⟨heval, hexec⟩ := ih
      constructor
      · exact fun e q => seen fun fs hcomes hfs =>
          expression heval hnatives hobeys hready (executeAll hexec) hcomes hfs
      · exact fun s q => seen fun fs hcomes hfs => statement heval hexec hcomes hfs

/-- A job keeps track of surroundings from the globals on. -/
theorem job (q : Machine) : Tracks natives m js j (j.run natives) q := by
  obtain ⟨heval, hexec⟩ := evaluate_execute (j := j) hnatives hobeys hready j.fuel
  have hprogram : ∀ ss q, Tracks natives m js j
      (fun see => interpretWatched see (j.setting natives) j.fuel ss) q := by
    intro ss
    induction ss with
    | nil => exact fun q => plain (StaysRecorded.lasting.flush q)
    | cons s ss ih => exact fun q => bind (.executed _ _ s) (hexec s q) fun _ q₁ _ => ih q₁
  unfold Job.run
  cases j.chunk with
  | program ss => exact map (.interpreted _ _ ss) (hprogram ss q)
  | expression e => exact map (.evaluated _ _ e) (heval e q)

end

end Tracks

/-! ### Jobs -/

theorem after_current (natives : List Native) (js : List Job) (m : Machine) :
    (m.after natives js).current = m.current := by
  induction js generalizing m with
  | nil => rfl
  | cons j js ih => exact (ih _).trans (j.chunk.restores _ _ m)

theorem Comes.split (h : Comes natives m js j node p) : ∃ done rest, js = done ++ j :: rest ∧
    Reaches (j.run natives) (m.after natives done) node p := by
  induction h with
  | @now m p j js node h => exact ⟨[], js, rfl, h⟩
  | @later m p i j js node _ ih =>
      obtain ⟨done, rest, rfl, hreach⟩ := ih
      exact ⟨i :: done, rest, rfl, hreach⟩

theorem Comes.of_reaches {done : List Job} (rest : List Job)
    (h : Reaches (j.run natives) (m.after natives done) node p) :
    Comes natives m (done ++ j :: rest) j node p := by
  induction done generalizing m with
  | nil => exact .now h
  | cons i done ih => exact .later (ih h)

section

variable (hnatives : ∀ native ∈ natives, native.Conserves)
  (hobeys : ∀ j ∈ js, j.chunk.Obeys .accepted) (hready : m.Ready .accepted)
  (hglobals : m.current = Heap.globals) (hnone : m.heap.functions.size = 0)

include hglobals in
/-- Between two jobs, the current frame is that of the globals. -/
theorem begins_after {done rest : List Job} (hjs : js = done ++ j :: rest) :
    Begins natives m js j (j.run natives) (m.after natives done) := by
  intro node p h
  have hcomes : Comes natives m js j node p := hjs ▸ .of_reaches rest h
  refine ⟨hcomes, fun hcurrent => ⟨[], .globals hcomes ?_⟩⟩
  rw [hcurrent, after_current, hglobals]

include hnatives hobeys hready hglobals hnone

theorem recorded_after {done rest : List Job} (hjs : js = done ++ rest) :
    Recorded natives m js (m.after natives done).heap := by
  induction done using List.reverseRecOn generalizing rest with
  | nil => exact fun f hf => absurd (hnone ▸ hf) (Nat.not_lt_zero f)
  | append_singleton done j ih =>
      have hsplit : js = done ++ j :: rest := hjs.trans (List.append_assoc ..)
      rw [after_append]
      exact (Tracks.job hnatives hobeys hready _ (begins_after hglobals hsplit) (ih hsplit)).2

/-- Whatever evaluation comes to has surroundings. -/
theorem Comes.surrounded (h : Comes natives m js j node p) : ∃ fs, Surrounded natives m js node p fs := by
  obtain ⟨done, rest, hjs, hreach⟩ := h.split
  have hrecorded := recorded_after hnatives hobeys hready hglobals hnone hjs
  exact (Tracks.job hnatives hobeys hready _ (begins_after hglobals hjs) hrecorded).1 node p hreach

end

end Machine

end

end LoxLang
