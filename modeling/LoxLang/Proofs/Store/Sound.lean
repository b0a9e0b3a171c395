import LoxLang.Proofs.Eval.Natives
import LoxLang.Proofs.Store.Growth

/-!
Sound heaps. Links lead to older frames and older classes, values to objects that exist, and code to
frames inside of the kind of class that the code was written in: methods to the frame that their class
was evaluated in, or to one that holds its superclass, and their bound copies to a frame that holds the
receiver. Every operation keeps a heap sound if what it adds is in order; what is there already is so
in any later heap.
-/

namespace LoxLang

open Scope

namespace Heap

/-- A function that programs can hold. An initializer among them is a bound one. -/
structure Callable (law : Law) (h : Heap) (f : Address) : Prop where
  size : f < h.functions.size
  bound : (h.function f).isInitializer = true →
    (h.frame (h.function f).closure).origin.isReceiver = true
  obeys : ∃ k, h.Around (h.function f).closure k ∧
    (h.function f).decl.Obeys law k (h.function f).isInitializer

/-- A value that programs can hold. -/
def Has (law : Law) (h : Heap) : Value → Prop
  | .function f => h.Callable law f
  | .classRef c => c < h.classes.size
  | .object i => i < h.instances.size
  | _ => True

/-- A frame that methods close over: one that holds the superclass of their class, if it has one. -/
structure MethodFrame (law : Law) (h : Heap) (up : Option Address) (b : Address) : Prop where
  size : b < h.frames.size
  base : up = none → h.RunsCode b
  derived : ∀ s, up = some s → (h.frame b).origin.isSuperclass = true ∧
    (¬law.Writes superclassName → (h.frame b).bindings.find? superclassName = some (.classRef s))

/-- A function that is a method of a class, as the class declares it. -/
structure Method (law : Law) (h : Heap) (up : Option Address) (name : String) (m : Address) : Prop where
  size : m < h.functions.size
  name : (h.function m).decl.name = name
  flag : (h.function m).isInitializer = (h.function m).decl.isInitializer
  obeys : (h.function m).decl.Obeys law (.inside up) (h.function m).isInitializer
  closure : h.MethodFrame law up (h.function m).closure

/-- A class declares a method. -/
structure Declares (h : Heap) (c m : Address) : Prop where
  size : c < h.classes.size
  found : ∃ name, (h.classObject c).methods.find? name = some m

/-- The functions of a method table are made of declarations, of two with one name of the later. -/
def Tabulates (h : Heap) (table : Bindings Address) (ds : List FunctionDecl) : Prop :=
  ∀ name, (table.find? name).map (fun m => (h.function m).decl) = ds.reverse.find? (·.name == name)

/-- A class is what a class statement makes of a superclass and of declarations. -/
structure Realizes (h : Heap) (c : Address) (up : Option Address) (ds : List FunctionDecl) : Prop where
  size : c < h.classes.size
  superclass : (h.classObject c).superclass = up
  methods : h.Tabulates (h.classObject c).methods ds

/-- A function is a copy of a method of a class, bound to an object. -/
structure Bound (h : Heap) (f c m i : Address) : Prop where
  size : f < h.functions.size
  method : h.Declares c m
  object : i < h.instances.size
  decl : (h.function f).decl = (h.function m).decl
  flag : (h.function f).isInitializer = (h.function m).isInitializer
  receiver : (h.frame (h.function f).closure).origin.isReceiver = true
  link : (h.frame (h.function f).closure).enclosing = some (h.function m).closure
  this : (h.frame (h.function f).closure).bindings.find? receiverName = some (.object i)

/-- Of a class and its superclasses upwards, `d` is the first that has a method of a name itself, and this
is the method `m`. -/
inductive Inherits (h : Heap) (name : String) : (c d m : Address) → Prop
  | own {c m : Address} (hfound : (h.classObject c).methods.find? name = some m) : Inherits h name c c m
  | up {c b d m : Address} (hnone : (h.classObject c).methods.find? name = none)
    (hup : (h.classObject c).superclass = some b) (hb : Inherits h name b d m) : Inherits h name c d m

/-- Of a class and its superclasses upwards, none has a method of a name itself. -/
inductive Lacks (h : Heap) (name : String) : Address → Prop
  | root {c : Address} (hnone : (h.classObject c).methods.find? name = none)
    (hroot : (h.classObject c).superclass = none) : Lacks h name c
  | up {c b : Address} (hnone : (h.classObject c).methods.find? name = none)
    (hup : (h.classObject c).superclass = some b) (hb : Lacks h name b) : Lacks h name c

structure FunctionSound (law : Law) (h : Heap) (f : Address) : Prop where
  closure : (h.function f).closure < h.frames.size
  lawful : law.function (h.function f).decl (h.function f).isInitializer
  bound : ¬law.Writes receiverName → (h.frame (h.function f).closure).origin.isReceiver = true →
    ∃ c m i, h.Bound f c m i

structure ClassSound (law : Law) (h : Heap) (c : Address) : Prop where
  superclass : ∀ up, (h.classObject c).superclass = some up → up < c
  methods : ∀ name m, (h.classObject c).methods.find? name = some m →
    h.Method law (h.classObject c).superclass name m

structure Sound (law : Law) (h : Heap) : Prop where
  globals : globals < h.frames.size
  placed : ∀ a < h.frames.size, h.Placed a
  values : ∀ a name v, (h.frame a).bindings.find? name = some v → h.Has law v
  functions : ∀ f < h.functions.size, h.FunctionSound law f
  classes : ∀ c < h.classes.size, h.ClassSound law c
  classOf : ∀ i < h.instances.size, (h.instanceObject i).classAddress < h.classes.size
  fields : ∀ i name v, (h.instanceObject i).fields.find? name = some v → h.Has law v

variable {law : Law} {h h' : Heap} {a b : Address} {name : String} {v : Value}

/-! ### Later heaps -/

theorem Callable.mono {f : Address} (hle : h.Grows law h') (hf : h.Callable law f) :
    h'.Callable law f := by
  have hfunction := hle.function f hf.size
  obtain ⟨k, haround, hobeys⟩ := hf.obeys
  refine ⟨Nat.lt_of_lt_of_le hf.size hle.functions, ?_, k, ?_⟩
  · rw [hfunction, hle.origin _ haround.size]
    exact hf.bound
  · rw [hfunction]
    exact ⟨haround.mono hle, hobeys⟩

theorem Has.mono (hle : h.Grows law h') (hv : h.Has law v) : h'.Has law v := by
  cases v with
  | function f => exact Callable.mono hle hv
  | classRef c => exact Nat.lt_of_lt_of_le hv hle.classes
  | object i => exact Nat.lt_of_lt_of_le hv hle.instances
  | _ => trivial

theorem MethodFrame.mono {up : Option Address} (hle : h.Grows law h')
    (hb : h.MethodFrame law up b) : h'.MethodFrame law up b where
  size := Nat.lt_of_lt_of_le hb.size hle.frames
  base hup := (hb.base hup).mono hle
  derived s hup := by
    obtain ⟨horigin, hbinding⟩ := hb.derived s hup
    refine ⟨hle.origin b hb.size ▸ horigin, fun hname => ?_⟩
    rw [hle.unwritten _ hname b hb.size, hbinding hname]

theorem Method.mono {up : Option Address} {m : Address} (hle : h.Grows law h')
    (hm : h.Method law up name m) : h'.Method law up name m := by
  obtain ⟨hsize, hname, hflag, hobeys, hclosure⟩ := hm
  rw [← hle.function m hsize] at hname hflag hobeys hclosure
  exact ⟨Nat.lt_of_lt_of_le hsize hle.functions, hname, hflag, hobeys, hclosure.mono hle⟩

theorem Declares.mono {c m : Address} (hle : h.Grows law h') (hm : h.Declares c m) :
    h'.Declares c m where
  size := Nat.lt_of_lt_of_le hm.size hle.classes
  found := by rw [hle.classObject c hm.size]; exact hm.found

theorem Declares.method {c m : Address} (hsound : h.Sound law) (hm : h.Declares c m) :
    ∃ name, h.Method law (h.classObject c).superclass name m := by
  obtain ⟨name, hfound⟩ := hm.found
  exact ⟨name, (hsound.classes c hm.size).methods name m hfound⟩

theorem Bound.mono {f c m i : Address} (hsound : h.Sound law) (hwrites : ¬law.Writes receiverName)
    (hle : h.Grows law h') (hf : h.Bound f c m i) : h'.Bound f c m i := by
  obtain ⟨name, hm⟩ := hf.method.method hsound
  have hclosure := size_of_receiver hf.receiver
  have hfunction := hle.function f hf.size
  have hmethod := hle.function m hm.size
  constructor
  case size => exact Nat.lt_of_lt_of_le hf.size hle.functions
  case method => exact hf.method.mono hle
  case object => exact Nat.lt_of_lt_of_le hf.object hle.instances
  case decl => rw [hfunction, hmethod, hf.decl]
  case flag => rw [hfunction, hmethod, hf.flag]
  case receiver => rw [hfunction, hle.origin _ hclosure, hf.receiver]
  case link => rw [hfunction, hmethod, hle.enclosing _ hclosure, hf.link]
  case this => rw [hfunction, hle.unwritten _ hwrites _ hclosure, hf.this]

theorem FunctionSound.mono {f : Address} (hsound : h.Sound law) (hle : h.Grows law h')
    (hsize : f < h.functions.size) (hf : h.FunctionSound law f) : h'.FunctionSound law f where
  closure := by
    rw [hle.function f hsize]
    exact Nat.lt_of_lt_of_le hf.closure hle.frames
  lawful := by
    rw [hle.function f hsize]
    exact hf.lawful
  bound hwrites hreceiver := by
    rw [hle.function f hsize, hle.origin _ hf.closure] at hreceiver
    obtain ⟨c, m, i, hbound⟩ := hf.bound hwrites hreceiver
    exact ⟨c, m, i, hbound.mono hsound hwrites hle⟩

theorem ClassSound.mono {c : Address} (hle : h.Grows law h') (hsize : c < h.classes.size)
    (hc : h.ClassSound law c) : h'.ClassSound law c := by
  obtain ⟨hsuperclass, hmethods⟩ := hc
  rw [← hle.classObject c hsize] at hsuperclass hmethods
  exact ⟨hsuperclass, fun name m hm => (hmethods name m hm).mono hle⟩

/-- A later heap is sound if what is new in it is in order. -/
theorem Sound.grow (hsound : h.Sound law) (hle : h.Grows law h')
    (hplaced : ∀ a, h.frames.size ≤ a → a < h'.frames.size → h'.Placed a)
    (hvalues : ∀ a name v, (h'.frame a).bindings.find? name = some v →
      (h.frame a).bindings.find? name = some v ∨ h'.Has law v)
    (hfunctions : ∀ f, h.functions.size ≤ f → f < h'.functions.size → h'.FunctionSound law f)
    (hclasses : ∀ c, h.classes.size ≤ c → c < h'.classes.size → h'.ClassSound law c)
    (hinstances : ∀ i, h.instances.size ≤ i → i < h'.instances.size →
      (h'.instanceObject i).classAddress < h'.classes.size)
    (hfields : ∀ i name v, (h'.instanceObject i).fields.find? name = some v →
      (h.instanceObject i).fields.find? name = some v ∨ h'.Has law v) : h'.Sound law := by
  constructor
  case globals => exact Nat.lt_of_lt_of_le hsound.globals hle.frames
  case placed =>
    intro a ha
    rcases Nat.lt_or_ge a h.frames.size with hold | hnew
    · exact (hsound.placed a hold).mono hle hold
    · exact hplaced a hnew ha
  case values =>
    intro a name v hv
    rcases hvalues a name v hv with hold | hnew
    · exact (hsound.values a name v hold).mono hle
    · exact hnew
  case functions =>
    intro f hf
    rcases Nat.lt_or_ge f h.functions.size with hold | hnew
    · exact (hsound.functions f hold).mono hsound hle hold
    · exact hfunctions f hnew hf
  case classes =>
    intro c hc
    rcases Nat.lt_or_ge c h.classes.size with hold | hnew
    · exact (hsound.classes c hold).mono hle hold
    · exact hclasses c hnew hc
  case classOf =>
    intro i hi
    rcases Nat.lt_or_ge i h.instances.size with hold | hnew
    · rw [hle.classAddress i hold]
      exact Nat.lt_of_lt_of_le (hsound.classOf i hold) hle.classes
    · exact hinstances i hnew hi
  case fields =>
    intro i name v hv
    rcases hfields i name v hv with hold | hnew
    · exact (hsound.fields i name v hold).mono hle
    · exact hnew

/-! ### Operations -/

private theorem nothing_new {P : Address → Prop} (n : Nat) : ∀ a, n ≤ a → a < n → P a :=
  fun _ hle hlt => absurd hlt (Nat.not_lt_of_le hle)

theorem Sound.addFrame (hsound : h.Sound law) {f : Frame}
    (hplaced : (h.addFrame f).Placed h.frames.size)
    (hvalues : ∀ name v, f.bindings.find? name = some v → h.Has law v) : (h.addFrame f).Sound law := by
  have hle := grows_addFrame law h f
  refine hsound.grow hle ?_ ?_ (nothing_new _) (nothing_new _) (nothing_new _) fun _ _ _ => .inl
  · intro a hnew ha
    rw [frames_size_addFrame] at ha
    obtain rfl : a = h.frames.size := Nat.le_antisymm (Nat.le_of_lt_succ ha) hnew
    exact hplaced
  · intro a name v hv
    rw [frame_addFrame] at hv
    split at hv
    · exact .inr ((hvalues name v hv).mono hle)
    · exact .inl hv

theorem Sound.addFunction (hsound : h.Sound law) {f : FunctionObject}
    (hnew : (h.addFunction f).FunctionSound law h.functions.size) :
    (h.addFunction f).Sound law := by
  refine hsound.grow (grows_addFunction law h f) (nothing_new _) (fun _ _ _ => .inl) ?_
    (nothing_new _) (nothing_new _) fun _ _ _ => .inl
  intro g hg hsize
  rw [functions_size_addFunction] at hsize
  obtain rfl : g = h.functions.size := Nat.le_antisymm (Nat.le_of_lt_succ hsize) hg
  exact hnew

theorem Sound.addClass (hsound : h.Sound law) {c : ClassObject}
    (hup : ∀ up, c.superclass = some up → up < h.classes.size)
    (hmethods : ∀ name m, c.methods.find? name = some m → h.Method law c.superclass name m) :
    (h.addClass c).Sound law := by
  have hle := grows_addClass law h c
  refine hsound.grow hle (nothing_new _) (fun _ _ _ => .inl) (nothing_new _) ?_ ?_
    fun _ _ _ => .inl
  · intro d hd hsize
    rw [classes_size_addClass] at hsize
    obtain rfl : d = h.classes.size := Nat.le_antisymm (Nat.le_of_lt_succ hsize) hd
    have hnew : (h.addClass c).classObject h.classes.size = c := by
      rw [classObject_addClass, if_pos rfl]
    constructor
    · rw [hnew]
      exact hup
    · rw [hnew]
      exact fun name m hm => (hmethods name m hm).mono hle
  · exact nothing_new _

theorem Sound.addInstance (hsound : h.Sound law) {c : Address} (hc : c < h.classes.size) :
    (h.addInstance ⟨c, []⟩).Sound law := by
  refine hsound.grow (grows_addInstance law h _) (nothing_new _) (fun _ _ _ => .inl) (nothing_new _)
    (nothing_new _) ?_ ?_
  · intro i hi hsize
    rw [instances_size_addInstance] at hsize
    obtain rfl : i = h.instances.size := Nat.le_antisymm (Nat.le_of_lt_succ hsize) hi
    rw [instanceObject_addInstance, if_pos rfl]
    exact hc
  · intro i name v hv
    rw [instanceObject_addInstance] at hv
    split at hv
    · cases hv
    · exact .inl hv

theorem Sound.define (hsound : h.Sound law) (ha : a < h.frames.size) (hname : law.Writes name)
    (hv : h.Has law v) : (h.define a name v).Sound law := by
  have hle := grows_define (v := v) ha hname
  refine hsound.grow hle ?_ ?_ (nothing_new _) (nothing_new _) (nothing_new _) fun _ _ _ => .inl
  · rw [frames_size_define]
    exact nothing_new _
  · intro b other w hw
    rw [frame_define h ha] at hw
    split at hw
    · rw [Bindings.find?_insert] at hw
      split at hw
      · cases hw
        exact .inr (hv.mono hle)
      · exact .inl hw
    · exact .inl hw

theorem Sound.setField (hsound : h.Sound law) {i : Address} (hi : i < h.instances.size)
    (hv : h.Has law v) : (h.setField i name v).Sound law := by
  have hle : h.Grows law (h.setField i name v) := grows_setField hi name v
  refine hsound.grow hle (nothing_new _) (fun _ _ _ => .inl) (nothing_new _) (nothing_new _) ?_ ?_
  · rw [instances_size_setField]
    exact nothing_new _
  · intro j other w hw
    rw [instanceObject_setField h hi] at hw
    split at hw
    · rw [Bindings.find?_insert] at hw
      split at hw
      · cases hw
        exact .inr (hv.mono hle)
      · exact .inl hw
    · exact .inl hw

/-! ### Reading -/

theorem size_of_contains (hname : (h.frame a).bindings.contains name = true) :
    a < h.frames.size := by
  refine Nat.lt_of_not_le fun hle => ?_
  rw [frame_of_le hle] at hname
  cases hname

theorem Sound.linked (hsound : h.Sound law) : h.Linked := by
  intro a b hlink
  have ha : a < h.frames.size := by
    refine Nat.lt_of_not_le fun hle => ?_
    rw [frame_of_le hle] at hlink
    cases hlink
  cases hsound.placed a ha with
  | globals _ _ hnone => cases hnone.symm.trans hlink
  | block _ hsome hold | call _ hsome hold | receiver _ hsome hold | superclass _ hsome hold =>
      cases hsome.symm.trans hlink
      exact hold

theorem Sound.chain_globals (hsound : h.Sound law) : h.chain Heap.globals = [Heap.globals] := by
  have hlink : (h.frame Heap.globals).enclosing = none := by
    cases hsound.placed Heap.globals hsound.globals with
    | globals _ _ hlink => exact hlink
    | block _ _ hold | call _ _ hold | receiver _ _ hold | superclass _ _ hold =>
        exact absurd hold (Nat.not_lt_zero _)
  rw [chain_eq hsound.linked, hlink]

/-- In a later heap a chain is the same. -/
theorem Sound.chain_of_grows (hsound : h.Sound law) (hsound' : h'.Sound law) (hle : h.Grows law h')
    (ha : a < h.frames.size) : h'.chain a = h.chain a := by
  induction a using Nat.strongRecOn with
  | ind a ih =>
      rw [chain_eq hsound'.linked, chain_eq hsound.linked, hle.enclosing a ha]
      cases hlink : (h.frame a).enclosing with
      | none => rfl
      | some b =>
          have hb := hsound.linked a b hlink
          exact congrArg (a :: ·) (ih b hb (Nat.lt_trans hb ha))

theorem Sound.has_valueIn (hsound : h.Sound law) (name : String) (a : Address) :
    h.Has law (h.valueIn name a) := by
  unfold valueIn
  cases hfound : (h.frame a).bindings.find? name with
  | none => trivial
  | some v => exact hsound.values a name v hfound

theorem Sound.has_of_getAt (hsound : h.Sound law) {d : Nat} (hv : h.getAt a d name = .ok v) :
    h.Has law v := by
  unfold getAt at hv
  cases hlocate : h.locateAt a d name with
  | error cause =>
      rw [hlocate] at hv
      cases hv
  | ok f =>
      rw [hlocate] at hv
      cases hv
      exact hsound.has_valueIn name f

/-- What a bound function is bound to is found next to its closure. -/
theorem Bound.getAt {f c m i : Address} (hf : h.Bound f c m i) :
    h.getAt (h.function f).closure 0 receiverName = .ok (.object i) :=
  getAt_of_find? (f := (h.function f).closure) rfl hf.this

theorem Sound.superclass_lt (hsound : h.Sound law) {c up : Address}
    (hup : (h.classObject c).superclass = some up) : up < c := by
  refine (hsound.classes c (Nat.lt_of_not_le fun hle => ?_)).superclass up hup
  rw [classObject_of_le hle] at hup
  cases hup

theorem Sound.le_of_mem_lineage (hsound : h.Sound law) {c d : Address} (hd : d ∈ h.lineage c) :
    d ≤ c := by
  have key : ∀ n c, d ∈ h.lineageUpTo n c → d ≤ c := by
    intro n
    induction n with
    | zero => exact fun _ hd => absurd hd List.not_mem_nil
    | succ n ih =>
        intro c hd
        rcases List.mem_cons.mp hd with rfl | hd
        · exact Nat.le_refl d
        · cases hup : (h.classObject c).superclass with
          | none =>
              rw [hup] at hd
              cases hd
          | some up =>
              rw [hup] at hd
              exact Nat.le_trans (ih up hd) (Nat.le_of_lt (hsound.superclass_lt hup))
  exact key _ c hd

/-- A method that is found is declared by some class of the lineage, under the name that it has. -/
theorem Sound.declares_of_findMethod? (hsound : h.Sound law) {c m : Address}
    (hc : c < h.classes.size) (hfound : h.findMethod? c name = some m) :
    (∃ d ∈ h.lineage c, h.Declares d m) ∧ (h.function m).decl.name = name := by
  obtain ⟨d, hd, hm⟩ := List.exists_of_findSome?_eq_some hfound
  have hsize := Nat.lt_of_le_of_lt (hsound.le_of_mem_lineage hd) hc
  exact ⟨⟨d, hd, hsize, name, hm⟩, ((hsound.classes d hsize).methods name m hm).name⟩

/-- A class that does not declare a method itself has the one of its superclass. -/
theorem Sound.findMethod?_eq (hsound : h.Sound law) (c : Address) (name : String) :
    h.findMethod? c name =
      match (h.classObject c).methods.find? name with
      | some f => some f
      | none => (h.classObject c).superclass.bind fun up => h.findMethod? up name := by
  rw [findMethod?, lineage_eq (fun _ _ hup => hsound.superclass_lt hup), List.findSome?_cons]
  cases (h.classObject c).methods.find? name with
  | some f => rfl
  | none => cases (h.classObject c).superclass <;> rfl

/-- A search for a method ends at the first class that has one, or where there is no superclass. -/
theorem Sound.findMethod?_cases (hsound : h.Sound law) (c : Address) (name : String) :
    (∃ d m, h.Inherits name c d m ∧ h.findMethod? c name = some m) ∨
      h.Lacks name c ∧ h.findMethod? c name = none := by
  induction c using Nat.strongRecOn with
  | ind c ih =>
      rw [hsound.findMethod?_eq]
      cases hfound : (h.classObject c).methods.find? name with
      | some m => exact .inl ⟨c, m, .own hfound, rfl⟩
      | none =>
          cases hup : (h.classObject c).superclass with
          | none => exact .inr ⟨.root hfound hup, rfl⟩
          | some b =>
              rcases ih b (hsound.superclass_lt hup) with ⟨d, m, hinherits, hm⟩ | ⟨hlacks, hm⟩
              · exact .inl ⟨d, m, .up hfound hup hinherits, hm⟩
              · exact .inr ⟨.up hfound hup hlacks, hm⟩

theorem Inherits.declares (hsound : h.Sound law) {c d m : Address} (h' : h.Inherits name c d m)
    (hc : c < h.classes.size) : h.Declares d m := by
  induction h' with
  | own hfound => exact ⟨hc, name, hfound⟩
  | up _ hup _ ih => exact ih (Nat.lt_trans (hsound.superclass_lt hup) hc)

/-- A class has and inherits the same methods at all times. -/
theorem Sound.findMethod?_of_grows (hsound : h.Sound law) (hsound' : h'.Sound law)
    (hle : h.Grows law h') {c : Address} (hc : c < h.classes.size) (name : String) :
    h'.findMethod? c name = h.findMethod? c name := by
  induction c using Nat.strongRecOn with
  | ind c ih =>
      rw [hsound'.findMethod?_eq, hsound.findMethod?_eq, hle.classObject c hc]
      cases (h.classObject c).methods.find? name with
      | some f => rfl
      | none =>
          cases hup : (h.classObject c).superclass with
          | none => rfl
          | some up =>
              have hlt := hsound.superclass_lt hup
              exact ih up hlt (Nat.lt_trans hlt hc)

theorem Tabulates.mono {table : Bindings Address} {ds : List FunctionDecl} (hle : h.Grows law h')
    (hsize : ∀ name m, table.find? name = some m → m < h.functions.size) :
    h'.Tabulates table ds ↔ h.Tabulates table ds := by
  refine forall_congr' fun name => ?_
  cases hfound : table.find? name with
  | none => rfl
  | some m => rw [Option.map_some, Option.map_some, hle.function m (hsize name m hfound)]

/-- A class is made of the same at all times. -/
theorem Sound.realizes_iff (hsound : h.Sound law) (hle : h.Grows law h') {c : Address}
    {up : Option Address} {ds : List FunctionDecl} (hc : c < h.classes.size) :
    h'.Realizes c up ds ↔ h.Realizes c up ds := by
  have hmethods : h'.Tabulates (h.classObject c).methods ds ↔ h.Tabulates (h.classObject c).methods ds :=
    Tabulates.mono hle fun name m hm => ((hsound.classes c hc).methods name m hm).size
  have hclass := hle.classObject c hc
  constructor
  · rintro ⟨-, hsuperclass, htable⟩
    exact ⟨hc, hclass ▸ hsuperclass, hmethods.mp (hclass ▸ htable)⟩
  · rintro ⟨-, hsuperclass, htable⟩
    refine ⟨Nat.lt_of_lt_of_le hc hle.classes, ?_, ?_⟩
    · rw [hclass, hsuperclass]
    · rw [hclass]
      exact hmethods.mpr htable

/-- What a host function may give back is what programs may hold. -/
theorem Sound.has_of_holds (hsound : h.Sound law) (hv : h.Holds v) : h.Has law v := by
  cases v with
  | function f =>
      rcases hv with ⟨a, name, hv⟩ | ⟨i, -, name, hv⟩
      · exact hsound.values a name _ hv
      · exact hsound.fields i name _ hv
  | _ => exact hv

/-! ### New frames -/

theorem addFrame_new (h : Heap) (f : Frame) : (h.addFrame f).frame h.frames.size = f := by
  rw [frame_addFrame, if_pos rfl]

theorem runsCode_new (f : Frame) (hreceiver : f.origin.isReceiver = false)
    (hsuperclass : f.origin.isSuperclass = false) : (h.addFrame f).RunsCode h.frames.size where
  size := by rw [frames_size_addFrame]; exact Nat.lt_succ_self _
  receiver := by rw [addFrame_new, hreceiver]
  superclass := by rw [addFrame_new, hsuperclass]

theorem MethodFrame.not_receiver {up : Option Address} (hb : h.MethodFrame law up b) :
    (h.frame b).origin.isReceiver = false := by
  cases up with
  | none => exact (hb.base rfl).receiver
  | some s =>
      have horigin := (hb.derived s rfl).1
      generalize (h.frame b).origin = o at horigin
      cases o <;> first | rfl | cases horigin

/-- Code in a frame around which there is a receiver is in the class of the method. -/
theorem MethodFrame.around {up : Option Address} (hb : h.MethodFrame law up b)
    (ha : (h.frame a).origin.isReceiver = true) (hlink : (h.frame a).enclosing = some b) :
    h.Around a (.inside up) := by
  cases up with
  | none => exact .base ha hlink (hb.base rfl)
  | some s => exact .derived ha hlink (hb.derived s rfl).1

theorem RunsCode.placed_block (hb : h.RunsCode b) (body : List Stmt) :
    (h.addFrame ⟨[], some b, .block body⟩).Placed h.frames.size := by
  have hnew := h.addFrame_new ⟨[], some b, .block body⟩
  exact .block (congrArg Frame.origin hnew) (congrArg Frame.enclosing hnew) hb.size
    (hb.mono (h.grows_addFrame .any _))

theorem RunsCode.placed_superclass (hb : h.RunsCode b) (bindings : Bindings Value) :
    (h.addFrame ⟨bindings, some b, .superclass⟩).Placed h.frames.size := by
  have hnew := h.addFrame_new ⟨bindings, some b, .superclass⟩
  exact .superclass (congrArg Frame.origin hnew) (congrArg Frame.enclosing hnew) hb.size
    (hb.mono (h.grows_addFrame .any _))

theorem MethodFrame.placed_receiver {up : Option Address} (hb : h.MethodFrame law up b)
    (bindings : Bindings Value) :
    (h.addFrame ⟨bindings, some b, .receiver⟩).Placed h.frames.size := by
  have hnew := h.addFrame_new ⟨bindings, some b, .receiver⟩
  refine .receiver (congrArg Frame.origin hnew) (congrArg Frame.enclosing hnew) hb.size ?_
  rw [(h.grows_addFrame law _).origin b hb.size, hb.not_receiver]

/-! ### New functions -/

theorem addFunction_new (h : Heap) (f : FunctionObject) :
    (h.addFunction f).function h.functions.size = f := by
  rw [function_addFunction, if_pos rfl]

/-- A function that is made outside of the frame of a receiver. -/
theorem functionSound_new {d : FunctionDecl} {flag : Bool} (hb : b < h.frames.size)
    (hreceiver : (h.frame b).origin.isReceiver = false) (hlawful : law.function d flag) :
    (h.addFunction ⟨d, b, flag⟩).FunctionSound law h.functions.size := by
  constructor <;> rw [addFunction_new]
  case closure => exact hb
  case lawful => exact hlawful
  case bound => exact fun _ htrue => absurd (hreceiver.symm.trans htrue) Bool.false_ne_true

theorem MethodFrame.method_new {up : Option Address} {d : FunctionDecl} (hb : h.MethodFrame law up b)
    (hobeys : d.Obeys law (.inside up) d.isInitializer) :
    (h.addFunction ⟨d, b, d.isInitializer⟩).Method law up d.name h.functions.size := by
  constructor
  case size =>
    rw [functions_size_addFunction]
    exact Nat.lt_succ_self _
  all_goals rw [addFunction_new]
  case obeys => exact hobeys
  case closure => exact hb.mono (h.grows_addFunction law _)

/-- A table goes on with a declaration and the function that is made of it. -/
theorem Tabulates.insert {table : Bindings Address} {ds : List FunctionDecl}
    (htable : h.Tabulates table ds)
    (hsize : ∀ name m, table.find? name = some m → m < h.functions.size) (d : FunctionDecl)
    (closure : Address) (flag : Bool) :
    (h.addFunction ⟨d, closure, flag⟩).Tabulates (table.insert d.name h.functions.size)
      (ds ++ [d]) := by
  have hold := (Tabulates.mono (h.grows_addFunction .any ⟨d, closure, flag⟩) hsize).mpr htable
  intro name
  rw [Bindings.find?_insert, List.reverse_append, List.reverse_singleton, List.singleton_append,
    List.find?_cons]
  by_cases hname : d.name = name
  · rw [if_pos hname, beq_iff_eq.mpr hname, Option.map_some, addFunction_new]
  · rw [if_neg hname, beq_eq_false_iff_ne.mpr hname]
    exact hold name

/-! ### Calls and bound methods -/

/-- The heap in which the body of a function that is called runs. -/
def opened (h : Heap) (f : Address) (arguments : Bindings Value) : Heap :=
  h.addFrame ⟨arguments, some (h.function f).closure, .call (h.function f).decl⟩

theorem grows_opened (law : Law) (h : Heap) (f : Address) (arguments : Bindings Value) :
    h.Grows law (h.opened f arguments) :=
  h.grows_addFrame law _

theorem Callable.placed {f : Address} (hf : h.Callable law f) (arguments : Bindings Value) :
    (h.opened f arguments).Placed h.frames.size := by
  obtain ⟨k, haround, -⟩ := hf.obeys
  have hnew := h.addFrame_new ⟨arguments, some (h.function f).closure, .call (h.function f).decl⟩
  refine .call (congrArg Frame.origin hnew) (congrArg Frame.enclosing hnew) haround.size ?_ hf.size
    rfl rfl
  rw [(h.grows_opened law f arguments).origin _ haround.size, haround.not_superclass]

/-- The heap with a copy of a method that closes over a new frame of a receiver. -/
def withBound (h : Heap) (m i : Address) : Heap :=
  (h.addFrame ⟨[(receiverName, .object i)], some (h.function m).closure, .receiver⟩).addFunction
    { h.function m with closure := h.frames.size }

theorem grows_withBound (law : Law) (h : Heap) (m i : Address) : h.Grows law (h.withBound m i) :=
  (h.grows_addFrame law _).trans (grows_addFunction law _ _)

/-- The copy is bound to the receiver. -/
theorem Declares.bound (hsound : h.Sound law) {c m i : Address} (hm : h.Declares c m)
    (hi : i < h.instances.size) : (h.withBound m i).Bound h.functions.size c m i := by
  obtain ⟨_, hmethod⟩ := hm.method hsound
  have hle := h.grows_withBound law m i
  have hold := hle.function m hmethod.size
  have hnew : (h.withBound m i).function h.functions.size =
      { h.function m with closure := h.frames.size } := by
    exact addFunction_new _ _
  have hframe : (h.withBound m i).frame h.frames.size =
      ⟨[(receiverName, .object i)], some (h.function m).closure, .receiver⟩ :=
    h.addFrame_new _
  constructor
  case size => exact (functions_size_addFunction ..).symm ▸ Nat.lt_succ_self _
  case method => exact hm.mono hle
  case object => exact Nat.lt_of_lt_of_le hi hle.instances
  case decl => rw [hnew, hold]
  case flag => rw [hnew, hold]
  all_goals rw [hnew]; dsimp only; rw [hframe]
  case receiver => rfl
  case link => rw [hold]
  case this => rfl

/-- A bound method may be called. -/
theorem Bound.callable (hsound : h.Sound law) {f c m i : Address} (hf : h.Bound f c m i) :
    h.Callable law f := by
  obtain ⟨_, hm⟩ := hf.method.method hsound
  refine ⟨hf.size, fun _ => hf.receiver, .inside (h.classObject c).superclass,
    hm.closure.around hf.receiver hf.link, ?_⟩
  rw [hf.decl, hf.flag]
  exact hm.obeys

end Heap

end LoxLang
