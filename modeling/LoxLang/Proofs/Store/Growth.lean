import LoxLang.Proofs.Scope.Law
import LoxLang.Proofs.Store.Heap

/-!
How a heap changes while programs run. Objects are added; of those that are there only the bindings of
frames and the fields of instances change, and of the bindings only those of names that some node
writes. So what is said of links, functions, classes and the names that nothing writes stays true.
-/

namespace LoxLang

open Scope

namespace Origin

def isReceiver : Origin → Bool
  | receiver => true
  | _ => false

def isSuperclass : Origin → Bool
  | superclass => true
  | _ => false

end Origin

namespace Heap

/-- A later heap, under a law that says which names are written. -/
structure Grows (law : Law) (h h' : Heap) : Prop where
  frames : h.frames.size ≤ h'.frames.size
  functions : h.functions.size ≤ h'.functions.size
  classes : h.classes.size ≤ h'.classes.size
  instances : h.instances.size ≤ h'.instances.size
  enclosing : ∀ a < h.frames.size, (h'.frame a).enclosing = (h.frame a).enclosing
  origin : ∀ a < h.frames.size, (h'.frame a).origin = (h.frame a).origin
  unwritten : ∀ name, ¬law.Writes name → ∀ a < h.frames.size,
    (h'.frame a).bindings.find? name = (h.frame a).bindings.find? name
  function : ∀ f < h.functions.size, h'.function f = h.function f
  classObject : ∀ c < h.classes.size, h'.classObject c = h.classObject c
  classAddress : ∀ i < h.instances.size,
    (h'.instanceObject i).classAddress = (h.instanceObject i).classAddress

variable {law : Law} {h h' h'' : Heap} {a b : Address} {name : String} {v : Value}

theorem Grows.refl (law : Law) (h : Heap) : h.Grows law h := by
  constructor <;> intros <;> first | exact Nat.le_refl _ | rfl

theorem Grows.trans (h₁ : h.Grows law h') (h₂ : h'.Grows law h'') : h.Grows law h'' where
  frames := Nat.le_trans h₁.frames h₂.frames
  functions := Nat.le_trans h₁.functions h₂.functions
  classes := Nat.le_trans h₁.classes h₂.classes
  instances := Nat.le_trans h₁.instances h₂.instances
  enclosing a ha := (h₂.enclosing a (Nat.lt_of_lt_of_le ha h₁.frames)).trans (h₁.enclosing a ha)
  origin a ha := (h₂.origin a (Nat.lt_of_lt_of_le ha h₁.frames)).trans (h₁.origin a ha)
  unwritten name hname a ha :=
    (h₂.unwritten name hname a (Nat.lt_of_lt_of_le ha h₁.frames)).trans (h₁.unwritten name hname a ha)
  function f hf := (h₂.function f (Nat.lt_of_lt_of_le hf h₁.functions)).trans (h₁.function f hf)
  classObject c hc :=
    (h₂.classObject c (Nat.lt_of_lt_of_le hc h₁.classes)).trans (h₁.classObject c hc)
  classAddress i hi :=
    (h₂.classAddress i (Nat.lt_of_lt_of_le hi h₁.instances)).trans (h₁.classAddress i hi)

/-- A heap has no more objects than another one. -/
structure NoLarger (h h' : Heap) : Prop where
  frames : h.frames.size ≤ h'.frames.size
  functions : h.functions.size ≤ h'.functions.size
  classes : h.classes.size ≤ h'.classes.size
  instances : h.instances.size ≤ h'.instances.size

/-- Of two heaps that come before one and the same, the larger is the later. -/
theorem Grows.of_noLarger (hle : h.Grows law h'') (hle' : h'.Grows law h'') (hsize : h.NoLarger h') :
    h.Grows law h' where
  frames := hsize.frames
  functions := hsize.functions
  classes := hsize.classes
  instances := hsize.instances
  enclosing a ha :=
    (hle'.enclosing a (Nat.lt_of_lt_of_le ha hsize.frames)).symm.trans (hle.enclosing a ha)
  origin a ha := (hle'.origin a (Nat.lt_of_lt_of_le ha hsize.frames)).symm.trans (hle.origin a ha)
  unwritten name hname a ha :=
    (hle'.unwritten name hname a (Nat.lt_of_lt_of_le ha hsize.frames)).symm.trans
      (hle.unwritten name hname a ha)
  function f hf :=
    (hle'.function f (Nat.lt_of_lt_of_le hf hsize.functions)).symm.trans (hle.function f hf)
  classObject c hc :=
    (hle'.classObject c (Nat.lt_of_lt_of_le hc hsize.classes)).symm.trans (hle.classObject c hc)
  classAddress i hi :=
    (hle'.classAddress i (Nat.lt_of_lt_of_le hi hsize.instances)).symm.trans (hle.classAddress i hi)

/-! ### Operations -/

theorem grows_addFrame (law : Law) (h : Heap) (f : Frame) : h.Grows law (h.addFrame f) := by
  have hframe : ∀ a < h.frames.size, (h.addFrame f).frame a = h.frame a := fun a ha => by
    rw [frame_addFrame, if_neg (Nat.ne_of_lt ha)]
  refine { Grows.refl law h with frames := ?_, enclosing := ?_, origin := ?_, unwritten := ?_ }
  · rw [frames_size_addFrame]
    exact Nat.le_succ _
  · exact fun a ha => by rw [hframe a ha]
  · exact fun a ha => by rw [hframe a ha]
  · exact fun name _ a ha => by rw [hframe a ha]

theorem grows_addFunction (law : Law) (h : Heap) (f : FunctionObject) :
    h.Grows law (h.addFunction f) := by
  refine { Grows.refl law h with functions := ?_, function := ?_ }
  · rw [functions_size_addFunction]
    exact Nat.le_succ _
  · exact fun a ha => by rw [function_addFunction, if_neg (Nat.ne_of_lt ha)]

theorem grows_addClass (law : Law) (h : Heap) (c : ClassObject) : h.Grows law (h.addClass c) := by
  refine { Grows.refl law h with classes := ?_, classObject := ?_ }
  · rw [classes_size_addClass]
    exact Nat.le_succ _
  · exact fun a ha => by rw [classObject_addClass, if_neg (Nat.ne_of_lt ha)]

theorem grows_addInstance (law : Law) (h : Heap) (i : Instance) :
    h.Grows law (h.addInstance i) := by
  refine { Grows.refl law h with instances := ?_, classAddress := ?_ }
  · rw [instances_size_addInstance]
    exact Nat.le_succ _
  · exact fun a ha => by rw [instanceObject_addInstance, if_neg (Nat.ne_of_lt ha)]

theorem grows_define (ha : a < h.frames.size) (hname : law.Writes name) (v : Value) :
    h.Grows law (h.define a name v) := by
  refine { Grows.refl law h with frames := ?_, enclosing := ?_, origin := ?_, unwritten := ?_ }
  · exact Nat.le_of_eq (frames_size_define h name v).symm
  · intro b _
    rw [frame_define h ha]
    split <;> rfl
  · intro b _
    rw [frame_define h ha]
    split <;> rfl
  · intro other hother b _
    have hne : name ≠ other := fun heq => hother (heq ▸ hname)
    rw [frame_define h ha]
    split
    · rw [Bindings.find?_insert, if_neg hne]
    · rfl

theorem grows_setField {i : Address} (hi : i < h.instances.size) (name : String) (v : Value) :
    h.Grows law (h.setField i name v) := by
  refine { Grows.refl law h with instances := ?_, classAddress := ?_ }
  · exact Nat.le_of_eq (instances_size_setField h name v).symm
  · intro j _
    rw [instanceObject_setField h hi]
    split <;> rfl

/-! ### Places of frames -/

theorem frame_of_le (ha : h.frames.size ≤ a) : h.frame a = ⟨[], none, .globals⟩ := by
  rw [frame, Array.getD_eq_getD_getElem?, Array.getElem?_eq_none ha]
  rfl

theorem instanceObject_of_le {i : Address} (hi : h.instances.size ≤ i) :
    h.instanceObject i = default := by
  rw [instanceObject, Array.getD_eq_getD_getElem?, Array.getElem?_eq_none hi]
  rfl

theorem classObject_of_le {c : Address} (hc : h.classes.size ≤ c) : h.classObject c = default := by
  rw [classObject, Array.getD_eq_getD_getElem?, Array.getElem?_eq_none hc]
  rfl

theorem size_of_receiver (ha : (h.frame a).origin.isReceiver = true) : a < h.frames.size := by
  refine Nat.lt_of_not_le fun hle => ?_
  rw [frame_of_le hle] at ha
  cases ha

theorem size_of_superclass (ha : (h.frame a).origin.isSuperclass = true) : a < h.frames.size := by
  refine Nat.lt_of_not_le fun hle => ?_
  rw [frame_of_le hle] at ha
  cases ha

/-- A frame that code may run in: it was opened for the globals, a block or a call. -/
structure RunsCode (h : Heap) (a : Address) : Prop where
  size : a < h.frames.size
  receiver : (h.frame a).origin.isReceiver = false
  superclass : (h.frame a).origin.isSuperclass = false

/-- The kind of class around a frame. The frame of a receiver is that of a method, whose class has a
superclass just if there is a frame for it next. -/
inductive Around (h : Heap) : Address → ClassKind → Prop
  | globals {a : Address} (hcode : h.RunsCode a) (hlink : (h.frame a).enclosing = none) :
    Around h a .none
  | code {a b : Address} {k : ClassKind} (hcode : h.RunsCode a)
    (hlink : (h.frame a).enclosing = some b) (hb : Around h b k) : Around h a k
  | base {a b : Address} (ha : (h.frame a).origin.isReceiver = true)
    (hlink : (h.frame a).enclosing = some b) (hb : h.RunsCode b) : Around h a .base
  | derived {a b : Address} (ha : (h.frame a).origin.isReceiver = true)
    (hlink : (h.frame a).enclosing = some b) (hb : (h.frame b).origin.isSuperclass = true) :
    Around h a .derived

/-- How frames hang on each other: on older ones, and each on such as its origin asks for. Only calls run
right inside of a receiver. -/
inductive Placed (h : Heap) (a : Address) : Prop
  | globals (haddress : a = globals) (horigin : (h.frame a).origin = .globals)
    (hlink : (h.frame a).enclosing = none)
  | block {body : List Stmt} {b : Address} (horigin : (h.frame a).origin = .block body)
    (hlink : (h.frame a).enclosing = some b) (hold : b < a) (hb : h.RunsCode b)
  | call {d : FunctionDecl} {b f : Address} (horigin : (h.frame a).origin = .call d)
    (hlink : (h.frame a).enclosing = some b) (hold : b < a)
    (hb : (h.frame b).origin.isSuperclass = false) (hf : f < h.functions.size)
    (hdecl : (h.function f).decl = d) (hclosure : (h.function f).closure = b)
  | receiver {b : Address} (horigin : (h.frame a).origin = .receiver)
    (hlink : (h.frame a).enclosing = some b) (hold : b < a)
    (hb : (h.frame b).origin.isReceiver = false)
  | superclass {b : Address} (horigin : (h.frame a).origin = .superclass)
    (hlink : (h.frame a).enclosing = some b) (hold : b < a) (hb : h.RunsCode b)

theorem RunsCode.mono (hle : h.Grows law h') (ha : h.RunsCode a) : h'.RunsCode a where
  size := Nat.lt_of_lt_of_le ha.size hle.frames
  receiver := by rw [hle.origin a ha.size, ha.receiver]
  superclass := by rw [hle.origin a ha.size, ha.superclass]

theorem Around.size {k : ClassKind} (ha : h.Around a k) : a < h.frames.size := by
  cases ha with
  | globals hcode => exact hcode.size
  | code hcode => exact hcode.size
  | base ha => exact size_of_receiver ha
  | derived ha => exact size_of_receiver ha

theorem Around.not_superclass {k : ClassKind} (ha : h.Around a k) :
    (h.frame a).origin.isSuperclass = false := by
  cases ha with
  | globals hcode => exact hcode.superclass
  | code hcode => exact hcode.superclass
  | base ha | derived ha =>
      generalize (h.frame a).origin = o at ha
      cases o <;> first | rfl | cases ha

theorem Around.mono {k : ClassKind} (hle : h.Grows law h') (ha : h.Around a k) : h'.Around a k := by
  induction ha with
  | globals hcode hlink =>
      exact .globals (hcode.mono hle) ((hle.enclosing _ hcode.size).trans hlink)
  | code hcode hlink _ ih =>
      exact .code (hcode.mono hle) ((hle.enclosing _ hcode.size).trans hlink) ih
  | base ha hlink hb =>
      have hsize := size_of_receiver ha
      exact .base (hle.origin _ hsize ▸ ha) ((hle.enclosing _ hsize).trans hlink) (hb.mono hle)
  | derived ha hlink hb =>
      have hsize := size_of_receiver ha
      exact .derived (hle.origin _ hsize ▸ ha) ((hle.enclosing _ hsize).trans hlink)
        (hle.origin _ (size_of_superclass hb) ▸ hb)

theorem Placed.mono (hle : h.Grows law h') (hsize : a < h.frames.size) (ha : h.Placed a) :
    h'.Placed a := by
  have horigin' := hle.origin a hsize
  have hlink' := hle.enclosing a hsize
  cases ha with
  | globals haddress horigin hlink =>
      exact .globals haddress (horigin'.trans horigin) (hlink'.trans hlink)
  | block horigin hlink hold hb =>
      exact .block (horigin'.trans horigin) (hlink'.trans hlink) hold (hb.mono hle)
  | call horigin hlink hold hb hf hdecl hclosure =>
      have hfunction := hle.function _ hf
      refine .call (horigin'.trans horigin) (hlink'.trans hlink) hold ?_
        (Nat.lt_of_lt_of_le hf hle.functions) (hfunction ▸ hdecl) (hfunction ▸ hclosure)
      rw [hle.origin _ (Nat.lt_trans hold hsize), hb]
  | receiver horigin hlink hold hb =>
      refine .receiver (horigin'.trans horigin) (hlink'.trans hlink) hold ?_
      rw [hle.origin _ (Nat.lt_trans hold hsize), hb]
  | superclass horigin hlink hold hb =>
      exact .superclass (horigin'.trans horigin) (hlink'.trans hlink) hold (hb.mono hle)

end Heap

end LoxLang
