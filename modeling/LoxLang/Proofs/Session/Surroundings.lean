import LoxLang.Proofs.Eval.Course
import LoxLang.Proofs.Session.Calls

/-!
What surrounds code that runs. At the top level it runs in the globals. A block that is entered runs in a
new frame, right inside of the frame that was current at the block, and so in the surroundings of the
block. A function that is called runs in a new frame, too, but right inside of the frame that the
function closes over; this is the frame that was current where evaluation came to the declaration, and
the surroundings are those of that moment. Methods close over the frame of their superclass, and their
bound copies over the frame of a receiver, between the two.

Every function that exists has been made where evaluation came to its declaration, or by binding such a
one to a receiver. So whatever a run comes to has surroundings, and the frames outwards are theirs.
-/

namespace LoxLang

open Scope Eval

namespace Machine

/-- The machine in which the statements of a block begin. -/
def inBlock (body : List Stmt) (q : Machine) : Machine :=
  { q with
    heap := q.heap.addFrame ⟨[], some q.current, .block body⟩
    current := q.heap.frames.size }

/-- The machine in which the body of a function begins. -/
def inCall (f : Address) (vs : List Value) (q : Machine) : Machine :=
  { q with
    heap := q.heap.opened f (argumentBindings (q.heap.function f).decl.params vs)
    current := q.heap.frames.size }

end Machine

/-- In a machine `r`, what evaluation comes to makes the function `f`, as it is on a later heap. The
function closes over the current frame, or over a new frame right inside of it that holds a superclass;
the frames between the two are told. -/
inductive Node.Makes (r : Machine) (h : Heap) (f : Address) : Node → List (Origin × Address) → Prop
  | expression {d : FunctionDecl} (hf : f = r.heap.functions.size)
    (hfunction : h.function f = ⟨d, r.current, false⟩) : Makes r h f (.expr (.function d)) []
  | statement {d : FunctionDecl} (hf : f = r.heap.functions.size)
    (hfunction : h.function f = ⟨d, r.current, false⟩) : Makes r h f (.stmt (.function d)) []
  | method {name : Token} {ds : List FunctionDecl} {i : Nat} {d : FunctionDecl} (hd : ds[i]? = some d)
    (hf : f = r.heap.functions.size + i)
    (hfunction : h.function f = ⟨d, r.current, d.isInitializer⟩) :
    Makes r h f (.stmt (.classDecl name none ds)) []
  | inherited {name : Token} {ref : Reference} {ds : List FunctionDecl} {i : Nat} {d : FunctionDecl}
    {b : Address} (hd : ds[i]? = some d) (hf : f = r.heap.functions.size + i)
    (hfunction : h.function f = ⟨d, b, d.isInitializer⟩) (hb : b = r.heap.frames.size)
    (horigin : (h.frame b).origin = .superclass)
    (hlink : (h.frame b).enclosing = some r.current) :
    Makes r h f (.stmt (.classDecl name (some ref) ds)) [(.superclass, b)]

namespace Machine

/-- In the course of some jobs, evaluation comes to a node, and these are the frames around it, innermost
first and without the globals, each with what it has been opened for. The block or the call that is in
progress has opened the innermost one. Further outwards are the frames around the block, or those around
the node that has made the function. -/
inductive Surrounded (natives : List Native) (m : Machine) (js : List Job) :
    Node → Machine → List (Origin × Address) → Prop
  | globals {j : Job} {node : Node} {p : Machine} (hcomes : Comes natives m js j node p)
    (hcurrent : p.current = Heap.globals) : Surrounded natives m js node p []
  | block {j : Job} {body : List Stmt} {n : Nat} {node : Node} {p q : Machine}
    {fs : List (Origin × Address)} (hcomes : Comes natives m js j node p)
    (hblock : Comes natives m js j (.stmt (.block body)) q)
    (hruns : Reaches (fun see => executeAll (executeWatched see (j.setting natives) n) body)
      (q.inBlock body) node p)
    (hcurrent : p.current = q.heap.frames.size)
    (hfs : Surrounded natives m js (.stmt (.block body)) q fs) :
    Surrounded natives m js node p ((.block body, q.heap.frames.size) :: fs)
  | call {j : Job} {n line : Nat} {f : Address} {vs : List Value} {node maker : Node} {p q r : Machine}
    {i : Job} {between fs : List (Origin × Address)} (hcomes : Comes natives m js j node p)
    (hcalls : Calls natives m js (j.setting natives) n (.function f) vs line q)
    (hruns : Reaches (fun see => executeAll (executeWatched see (j.setting natives) n)
      (q.heap.function f).decl.body) (q.inCall f vs) node p)
    (hcurrent : p.current = q.heap.frames.size)
    (hmaker : Comes natives m js i maker r) (hmakes : maker.Makes r q.heap f between)
    (hfs : Surrounded natives m js maker r fs) :
    Surrounded natives m js node p
      ((.call (q.heap.function f).decl, q.heap.frames.size) :: (between ++ fs))
  | method {j : Job} {n line : Nat} {f c g o : Address} {vs : List Value} {node maker : Node}
    {p q r : Machine} {i : Job} {between fs : List (Origin × Address)}
    (hcomes : Comes natives m js j node p)
    (hcalls : Calls natives m js (j.setting natives) n (.function f) vs line q)
    (hruns : Reaches (fun see => executeAll (executeWatched see (j.setting natives) n)
      (q.heap.function f).decl.body) (q.inCall f vs) node p)
    (hcurrent : p.current = q.heap.frames.size) (hbound : q.heap.Bound f c g o)
    (hmaker : Comes natives m js i maker r) (hmakes : maker.Makes r q.heap g between)
    (hfs : Surrounded natives m js maker r fs) :
    Surrounded natives m js node p ((.call (q.heap.function f).decl, q.heap.frames.size) ::
      (.receiver, (q.heap.function f).closure) :: (between ++ fs))

/-- A function of a heap has been made in the course of some jobs. -/
def Made (natives : List Native) (m : Machine) (js : List Job) (h : Heap) (f : Address) : Prop :=
  ∃ j maker r between fs, Comes natives m js j maker r ∧ maker.Makes r h f between ∧
    Surrounded natives m js maker r fs

/-- All functions of a heap have been made in the course of some jobs, save for those that are bound to
a receiver. -/
def Recorded (natives : List Native) (m : Machine) (js : List Job) (h : Heap) : Prop :=
  ∀ f < h.functions.size,
    (h.frame (h.function f).closure).origin.isReceiver = true ∨ Made natives m js h f

end Machine

/-! ### Heaps -/

section

variable {natives : List Native} {m r : Machine} {js : List Job} {h h' : Heap} {f : Address}
  {maker : Node} {between : List (Origin × Address)}

theorem Node.Makes.mono (hfunction : h'.function f = h.function f)
    (hframes : ∀ a < h.frames.size, (h'.frame a).origin = (h.frame a).origin ∧
      (h'.frame a).enclosing = (h.frame a).enclosing)
    (hmakes : maker.Makes r h f between) : maker.Makes r h' f between := by
  cases hmakes with
  | expression hf hnew => exact .expression hf (hfunction.trans hnew)
  | statement hf hnew => exact .statement hf (hfunction.trans hnew)
  | method hd hf hnew => exact .method hd hf (hfunction.trans hnew)
  | @inherited _ _ _ _ _ b hd hf hnew hb horigin hlink =>
      have hsize : b < h.frames.size := Heap.size_of_superclass (by rw [horigin]; rfl)
      obtain ⟨horigin', hlink'⟩ := hframes b hsize
      exact .inherited hd hf (hfunction.trans hnew) hb (horigin'.trans horigin) (hlink'.trans hlink)

namespace Machine

theorem Made.mono (hfunction : h'.function f = h.function f)
    (hframes : ∀ a < h.frames.size, (h'.frame a).origin = (h.frame a).origin ∧
      (h'.frame a).enclosing = (h.frame a).enclosing)
    (hmade : Made natives m js h f) : Made natives m js h' f := by
  obtain ⟨j, maker, r, between, fs, hmaker, hmakes, hfs⟩ := hmade
  exact ⟨j, maker, r, between, fs, hmaker, hmakes.mono hfunction hframes, hfs⟩

/-- What is new on a heap is recorded, and what was there is as it was. -/
theorem Recorded.grow (hrecorded : Recorded natives m js h)
    (hfunctions : ∀ f < h.functions.size, h'.function f = h.function f)
    (hframes : ∀ a < h.frames.size, (h'.frame a).origin = (h.frame a).origin ∧
      (h'.frame a).enclosing = (h.frame a).enclosing)
    (hnew : ∀ f, h.functions.size ≤ f → f < h'.functions.size →
      (h'.frame (h'.function f).closure).origin.isReceiver = true ∨ Made natives m js h' f) :
    Recorded natives m js h' := by
  intro f hf
  rcases Nat.lt_or_ge f h.functions.size with hold | hge
  · rcases hrecorded f hold with hreceiver | hmade
    · have hclosure := (hframes _ (Heap.size_of_receiver hreceiver)).1
      exact .inl (by rw [hfunctions f hold, hclosure, hreceiver])
    · exact .inr (hmade.mono (hfunctions f hold) hframes)
  · exact hnew f hge hf

theorem Recorded.of_functions (hrecorded : Recorded natives m js h)
    (hfunctions : h'.functions = h.functions)
    (hframes : ∀ a < h.frames.size, (h'.frame a).origin = (h.frame a).origin ∧
      (h'.frame a).enclosing = (h.frame a).enclosing) : Recorded natives m js h' := by
  refine hrecorded.grow (fun f _ => ?_) hframes fun f hge hlt => ?_
  · rw [Heap.function, hfunctions, Heap.function]
  · rw [hfunctions] at hlt
    exact absurd hlt (Nat.not_lt_of_le hge)

theorem Recorded.addFrame (hrecorded : Recorded natives m js h) (o : Frame) :
    Recorded natives m js (h.addFrame o) := by
  refine hrecorded.of_functions rfl fun a ha => ?_
  rw [Heap.frame_addFrame, if_neg (Nat.ne_of_lt ha)]
  exact ⟨rfl, rfl⟩

theorem Recorded.define (hrecorded : Recorded natives m js h) (a : Address) (name : String) (v : Value) :
    Recorded natives m js (h.define a name v) := by
  refine hrecorded.of_functions rfl fun b hb => ?_
  have hframe : (h.define a name v).frame b = if a = b then
      { h.frame b with bindings := (h.frame b).bindings.insert name v } else h.frame b := by
    simp only [Heap.frame, Heap.define, Array.getD_eq_getD_getElem?, Array.getElem?_modify]
    split <;> simp [hb]
  rw [hframe]
  split <;> exact ⟨rfl, rfl⟩

theorem Recorded.addFunction (hrecorded : Recorded natives m js h) {o : FunctionObject}
    (hnew : ((h.addFunction o).frame o.closure).origin.isReceiver = true ∨
      Made natives m js (h.addFunction o) h.functions.size) :
    Recorded natives m js (h.addFunction o) := by
  refine hrecorded.grow (fun f hf => ?_) (fun _ _ => ⟨rfl, rfl⟩) fun f hge hlt => ?_
  · rw [Heap.function_addFunction, if_neg (Nat.ne_of_lt hf)]
  · rw [Heap.functions_size_addFunction] at hlt
    obtain rfl : f = h.functions.size := Nat.le_antisymm (Nat.le_of_lt_succ hlt) hge
    rw [Heap.addFunction_new]
    exact hnew

/-- A method that is bound to a receiver closes over the frame of the receiver. -/
theorem Recorded.withBound (hrecorded : Recorded natives m js h) (method i : Address) :
    Recorded natives m js (h.withBound method i) := by
  refine (hrecorded.addFrame _).addFunction (.inl ?_)
  change ((h.addFrame _).frame h.frames.size).origin.isReceiver = true
  rw [Heap.addFrame_new]
  rfl

end Machine

end

end LoxLang
