import LoxLang.Proofs.Eval.Natives
import LoxLang.Proofs.Scope.Resolution
import LoxLang.Proofs.Store.Bypass
import LoxLang.Proofs.Store.Growth
import LoxLang.Proofs.Syntax.Renumber

/-!
Functions on the two sides of a bypass. A function of the first heap has its counterpart at the same
address in the second one. It may be code under other identities, but it closes over the counterpart of
its frame, inside of the same frames but for one that is bypassed. Values, classes and instances are the
same on both sides.
-/

namespace LoxLang

open Scope

namespace Bypass

variable (F : Knowledge)

/-- Two functions are counterparts. The code is in a place that is `gap` scopes inside of the frame it
closes over: none if the function can be called, and one if it is a method without a receiver. -/
structure SameCode (W : Bypass) (gap : Nat) (o o' : FunctionObject) : Prop where
  closure : o'.closure = W.image o.closure
  flag : o'.isInitializer = o.isInitializer
  spelled : o.decl.Spelled
  code : ∃ k skip, ∃ p : Path, ∃ asMethod n, p.depth = n + gap ∧ W.Stands o.closure skip n ∧
    o'.decl = o.decl.relabel (.renumber k) ∧ ∀ u ∈ o.decl.uses asMethod p, F k skip u
  /-- An initializer that can be called finds its receiver in the frame that it closes over. -/
  bound : gap = 0 → o.isInitializer = true → ¬W.bypassed o.closure

/-- A function has its counterpart at the same address. -/
structure SameFunction (W : Bypass) (gap : Nat) (f : Address) : Prop where
  size : f < W.left.functions.size
  same : W.SameCode F gap (W.left.function f) (W.right.function f)

/-- A value that programs can hold. -/
def Valid (W : Bypass) : Value → Prop
  | .function f => W.SameFunction F 0 f
  | _ => True

structure Good (W : Bypass) : Prop extends W.GoodFrames where
  functions : W.right.functions.size = W.left.functions.size
  classes : W.right.classes = W.left.classes
  instances : W.right.instances = W.left.instances
  values : ∀ a name v, (W.left.frame a).bindings.find? name = some v → W.Valid F v
  fields : ∀ i name v, (W.left.instanceObject i).fields.find? name = some v → W.Valid F v
  methods : ∀ c name f, (W.left.classObject c).methods.find? name = some f → W.SameFunction F 1 f

variable {F} {W W' : Bypass} {gap : Nat} {a b f : Address} {v : Value}

theorem SameCode.mono {o o' : FunctionObject} (h : W.SameCode F gap o o') (hle : W.Le W')
    (hgood : W.GoodFrames) (hgood' : W'.GoodFrames) : W'.SameCode F gap o o' := by
  obtain ⟨hclosure, hflag, hspelled, hcode, hbound⟩ := h
  obtain ⟨k, skip, p, asMethod, n, hdepth, hstands, hdecl, hknown⟩ := hcode
  constructor
  case closure => rw [hle.image _ hstands.size, hclosure]
  case flag => exact hflag
  case spelled => exact hspelled
  case code =>
    exact ⟨k, skip, p, asMethod, n, hdepth, hstands.mono hle hgood hgood', hdecl, hknown⟩
  case bound =>
    intro hgap hinit hpassed
    exact hbound hgap hinit ((hle.bypassed _ hstands.size).mp hpassed)

theorem SameFunction.mono (h : W.SameFunction F gap f) (hle : W.Le W') (hgood : W.GoodFrames)
    (hgood' : W'.GoodFrames) : W'.SameFunction F gap f := by
  obtain ⟨hleft, hright⟩ := hle.function f h.size
  constructor
  · exact Nat.lt_of_lt_of_le h.size hle.functions
  · rw [hleft, hright]
    exact h.same.mono hle hgood hgood'

theorem Valid.mono (h : W.Valid F v) (hle : W.Le W') (hgood : W.GoodFrames)
    (hgood' : W'.GoodFrames) : W'.Valid F v := by
  cases v with
  | function f => exact SameFunction.mono h hle hgood hgood'
  | _ => trivial

/-! ### What the two sides have in common -/

theorem SameFunction.name (h : W.SameFunction F gap f) :
    (W.right.function f).decl.name = (W.left.function f).decl.name := by
  obtain ⟨k, skip, p, asMethod, n, -, -, hdecl, -⟩ := h.same.code
  rw [hdecl, FunctionDecl.name_relabel]

theorem SameFunction.params (h : W.SameFunction F gap f) :
    (W.right.function f).decl.params = (W.left.function f).decl.params := by
  obtain ⟨k, skip, p, asMethod, n, -, -, hdecl, -⟩ := h.same.code
  rw [hdecl, FunctionDecl.params_relabel, Token.map_relabel_renumber]

theorem SameFunction.arity (h : W.SameFunction F gap f) :
    (W.right.function f).arity = (W.left.function f).arity := by
  rw [FunctionObject.arity, h.params, FunctionObject.arity]

theorem SameFunction.sameTexts (h : W.SameFunction F gap f) :
    (Value.function f).SameTexts W.left W.right := by
  constructor
  · unfold Value.printed
    dsimp only
    rw [h.name]
  · intro natives
    unfold Value.detail FunctionObject.detail
    dsimp only
    rw [h.name, h.params, h.same.flag]

namespace Good

variable (hgood : W.Good F)

include hgood

theorem classObject_right : W.right.classObject = W.left.classObject := by
  funext c
  rw [Heap.classObject, hgood.classes, Heap.classObject]

theorem instanceObject_right : W.right.instanceObject = W.left.instanceObject := by
  funext i
  rw [Heap.instanceObject, hgood.instances, Heap.instanceObject]

theorem findMethod?_right (c : Address) (name : String) :
    W.right.findMethod? c name = W.left.findMethod? c name :=
  Heap.findMethod?_congr hgood.classes c name

/-- What a class has or inherits is a method. -/
theorem method_of_findMethod? {c : Address} {name : String}
    (h : W.left.findMethod? c name = some f) : W.SameFunction F 1 f := by
  obtain ⟨b, -, hf⟩ := List.exists_of_findSome?_eq_some h
  exact hgood.methods b name f hf

theorem valueIn_valid (f : Address) (name : String) : W.Valid F (W.left.valueIn name f) := by
  rw [Heap.valueIn]
  cases hfound : (W.left.frame f).bindings.find? name with
  | none => trivial
  | some v => exact hgood.values f name v hfound

theorem arity?_right (natives : List Native) (hv : W.Valid F v) :
    W.right.arity? natives v = W.left.arity? natives v := by
  cases v with
  | function f => exact congrArg some (SameFunction.arity hv)
  | classRef c =>
      simp only [Heap.arity?, hgood.findMethod?_right]
      cases hfound : W.left.findMethod? c FunctionDecl.initializerName with
      | none => rfl
      | some f => exact congrArg some (hgood.method_of_findMethod? hfound).arity
  | _ => rfl

theorem sameTexts (hv : W.Valid F v) : v.SameTexts W.left W.right := by
  have hclass := hgood.classObject_right
  have hinstance := hgood.instanceObject_right
  cases v with
  | function f => exact SameFunction.sameTexts hv
  | classRef c =>
      refine ⟨?_, fun natives => ?_⟩
      · unfold Value.printed
        dsimp only
        rw [hclass]
      · unfold Value.detail ClassObject.detail
        dsimp only
        rw [hclass]
  | object i =>
      refine ⟨?_, fun natives => ?_⟩
      · unfold Value.printed
        dsimp only
        rw [hclass, hinstance]
      · unfold Value.detail Instance.detail
        dsimp only
        rw [hclass, hinstance]
  | bool b => cases b <;> exact ⟨rfl, fun _ => rfl⟩
  | _ => exact ⟨rfl, fun _ => rfl⟩

theorem valid_of_holds (h : W.left.Holds v) : W.Valid F v := by
  cases v with
  | function f =>
      rcases h with ⟨a, name, hv⟩ | ⟨i, -, name, hv⟩
      · exact hgood.values a name _ hv
      · exact hgood.fields i name _ hv
  | _ => trivial

/-- The two heaps look alike to a host function. -/
theorem sameSight {arguments : List Value} (harguments : ∀ v ∈ arguments, W.Valid F v) :
    W.left.SameSight W.right arguments := by
  refine ⟨hgood.classes, hgood.instances, ?_, ?_⟩
  · rintro v (hv | hv)
    · exact hgood.sameTexts (harguments v hv)
    · exact hgood.sameTexts (hgood.valid_of_holds hv)
  · exact fun c _ name f hf => (hgood.methods c name f hf).sameTexts

/-- A host function gives the same on both sides, and nothing that programs cannot hold. -/
theorem native {native : Native} (h : native.Faithful) {arguments : List Value}
    (harguments : ∀ v ∈ arguments, W.Valid F v) (n : Nat) :
    native.run ⟨W.right, n⟩ arguments = native.run ⟨W.left, n⟩ arguments ∧
      ∀ v, native.run ⟨W.left, n⟩ arguments = .ok v → W.Valid F v := by
  constructor
  · exact h.same _ _ n _ (hgood.sameSight harguments)
  · intro v hresult
    rcases h.held _ _ _ hresult with hmem | hholds
    · exact harguments v hmem
    · exact hgood.valid_of_holds hholds

end Good

/-! ### Objects -/

/-- A new function in both heaps. -/
def addFunction (o o' : FunctionObject) (W : Bypass) : Bypass where
  left := W.left.addFunction o
  right := W.right.addFunction o'
  image := W.image
  bypassed := W.bypassed

def addClass (c : ClassObject) (W : Bypass) : Bypass where
  left := W.left.addClass c
  right := W.right.addClass c
  image := W.image
  bypassed := W.bypassed

def addInstance (i : Instance) (W : Bypass) : Bypass where
  left := W.left.addInstance i
  right := W.right.addInstance i
  image := W.image
  bypassed := W.bypassed

def setField (i : Address) (name : String) (v : Value) (W : Bypass) : Bypass where
  left := W.left.setField i name v
  right := W.right.setField i name v
  image := W.image
  bypassed := W.bypassed

theorem le_addFunction (hgood : W.Good F) (o o' : FunctionObject) : W.Le (W.addFunction o o') := by
  refine { Le.refl W with functions := ?_, function := ?_ }
  · simp [addFunction]
  · intro f hf
    have hne : ¬f = W.left.functions.size := Nat.ne_of_lt hf
    constructor
    · exact (W.left.function_addFunction o f).trans (if_neg hne)
    · exact (W.right.function_addFunction o' f).trans (if_neg (hgood.functions ▸ hne))

theorem le_addClass (c : ClassObject) (W : Bypass) : W.Le (W.addClass c) :=
  { Le.refl W with }

theorem le_addInstance (i : Instance) (W : Bypass) : W.Le (W.addInstance i) :=
  { Le.refl W with }

theorem le_setField (i : Address) (name : String) (v : Value) (W : Bypass) :
    W.Le (W.setField i name v) :=
  { Le.refl W with }

/-- A later pair of heaps is good if what is new in it is. -/
theorem Good.grow (hgood : W.Good F) (hle : W.Le W') (hframes : W'.GoodFrames)
    (hfunctions : W'.right.functions.size = W'.left.functions.size)
    (hclasses : W'.right.classes = W'.left.classes)
    (hinstances : W'.right.instances = W'.left.instances)
    (hvalues : ∀ a name v, (W'.left.frame a).bindings.find? name = some v →
      (W.left.frame a).bindings.find? name = some v ∨ W.Valid F v)
    (hfields : ∀ i name v, (W'.left.instanceObject i).fields.find? name = some v →
      (W.left.instanceObject i).fields.find? name = some v ∨ W.Valid F v)
    (hmethods : ∀ c name f, (W'.left.classObject c).methods.find? name = some f →
      (W.left.classObject c).methods.find? name = some f ∨ W.SameFunction F 1 f) : W'.Good F := by
  have hold := hgood.toGoodFrames
  refine ⟨hframes, hfunctions, hclasses, hinstances, ?_, ?_, ?_⟩
  · intro a name v hv
    rcases hvalues a name v hv with hv | hv
    · exact (hgood.values a name v hv).mono hle hold hframes
    · exact hv.mono hle hold hframes
  · intro i name v hv
    rcases hfields i name v hv with hv | hv
    · exact (hgood.fields i name v hv).mono hle hold hframes
    · exact hv.mono hle hold hframes
  · intro c name f hf
    rcases hmethods c name f hf with hf | hf
    · exact (hgood.methods c name f hf).mono hle hold hframes
    · exact hf.mono hle hold hframes

theorem Good.addFrame {o o' : Frame} (hgood : W.Good F) (hnew : W.FramesAround b o o')
    (hvalues : ∀ name v, o.bindings.find? name = some v → W.Valid F v) :
    (W.addFrame o o').Good F := by
  refine hgood.grow (W.le_addFrame o o') (hgood.toGoodFrames.addFrame hnew) hgood.functions
    hgood.classes hgood.instances ?_ (fun _ _ _ => .inl) fun _ _ _ => .inl
  intro a name v hv
  rw [Bypass.addFrame, Heap.frame_addFrame] at hv
  split at hv
  · exact .inr (hvalues name v hv)
  · exact .inl hv

theorem Good.addBypassed {o : Frame} (hgood : W.Good F) (hb : b < W.left.frames.size)
    (hbindings : o.bindings = []) (henclosing : o.enclosing = some b) :
    (W.addBypassed b o).Good F := by
  refine hgood.grow (W.le_addBypassed b o)
    (hgood.toGoodFrames.addBypassed hb hbindings henclosing) hgood.functions hgood.classes
    hgood.instances ?_ (fun _ _ _ => .inl) fun _ _ _ => .inl
  intro a name v hv
  rw [Bypass.addBypassed, Heap.frame_addFrame] at hv
  split at hv
  · rw [hbindings] at hv
    cases hv
  · exact .inl hv

theorem Good.define (hgood : W.Good F) (hf : W.Kept f) (name : String) (hv : W.Valid F v) :
    (W.define f name v).Good F := by
  refine hgood.grow (W.le_define hf.size name v) (hgood.toGoodFrames.define hf name v)
    hgood.functions hgood.classes hgood.instances ?_ (fun _ _ _ => .inl) fun _ _ _ => .inl
  intro a other w hw
  rw [Bypass.define, W.left.frame_define hf.size] at hw
  split at hw
  · simp only [Bindings.find?_insert] at hw
    split at hw
    · cases hw
      exact .inr hv
    · exact .inl hw
  · exact .inl hw

theorem Good.addFunction (hgood : W.Good F) (o o' : FunctionObject) : (W.addFunction o o').Good F := by
  refine hgood.grow (le_addFunction hgood o o') (hgood.toGoodFrames.congr rfl rfl rfl rfl) ?_
    hgood.classes hgood.instances (fun _ _ _ => .inl) (fun _ _ _ => .inl) fun _ _ _ => .inl
  simp [Bypass.addFunction, hgood.functions]

/-- A new function has its counterpart. -/
theorem SameCode.addFunction {o o' : FunctionObject} (h : W.SameCode F gap o o')
    (hgood : W.Good F) : (W.addFunction o o').SameFunction F gap W.left.functions.size := by
  have hleft : (W.addFunction o o').left.function W.left.functions.size = o :=
    (W.left.function_addFunction o _).trans (if_pos rfl)
  have hright : (W.addFunction o o').right.function W.left.functions.size = o' :=
    (W.right.function_addFunction o' _).trans (if_pos hgood.functions.symm)
  constructor
  case size => simp [Bypass.addFunction]
  case same =>
    rw [hleft, hright]
    exact h.mono (le_addFunction hgood o o') hgood.toGoodFrames (hgood.addFunction o o').toGoodFrames

theorem Good.addClass {c : ClassObject} (hgood : W.Good F)
    (hmethods : ∀ name f, c.methods.find? name = some f → W.SameFunction F 1 f) :
    (W.addClass c).Good F := by
  refine hgood.grow (W.le_addClass c) (hgood.toGoodFrames.congr rfl rfl rfl rfl) hgood.functions ?_
    hgood.instances (fun _ _ _ => .inl) (fun _ _ _ => .inl) ?_
  · simp [Bypass.addClass, Heap.addClass, hgood.classes]
  · intro d name f hf
    rw [Bypass.addClass, Heap.classObject_addClass] at hf
    split at hf
    · exact .inr (hmethods name f hf)
    · exact .inl hf

theorem Good.addInstance (hgood : W.Good F) (c : Address) : (W.addInstance ⟨c, []⟩).Good F := by
  refine hgood.grow (W.le_addInstance _) (hgood.toGoodFrames.congr rfl rfl rfl rfl) hgood.functions
    hgood.classes ?_ (fun _ _ _ => .inl) ?_ fun _ _ _ => .inl
  · simp [Bypass.addInstance, Heap.addInstance, hgood.instances]
  · intro i name v hv
    rw [Bypass.addInstance, Heap.instanceObject_addInstance] at hv
    split at hv
    · cases hv
    · exact .inl hv

theorem Good.setField {i : Address} (hgood : W.Good F) (name : String) (hv : W.Valid F v) :
    (W.setField i name v).Good F := by
  refine hgood.grow (W.le_setField i name v) (hgood.toGoodFrames.congr rfl rfl rfl rfl)
    hgood.functions hgood.classes ?_ (fun _ _ _ => .inl) ?_ fun _ _ _ => .inl
  · simp [Bypass.setField, Heap.setField, hgood.instances]
  · intro j other w hw
    rcases Nat.lt_or_ge i W.left.instances.size with hi | hi
    · rw [Bypass.setField, W.left.instanceObject_setField hi] at hw
      split at hw
      · simp only [Bindings.find?_insert] at hw
        split at hw
        · cases hw
          exact .inr hv
        · exact .inl hw
      · exact .inl hw
    · -- There is no instance to change.
      have hsame : (W.setField i name v).left.instanceObject j = W.left.instanceObject j := by
        simp only [Bypass.setField, Heap.setField, Heap.instanceObject, Array.getD_eq_getD_getElem?,
          Array.getElem?_modify]
        split
        case isTrue heq => simp [← heq, Array.getElem?_eq_none hi]
        case isFalse => rfl
      rw [hsame] at hw
      exact .inl hw

end Bypass

end LoxLang
