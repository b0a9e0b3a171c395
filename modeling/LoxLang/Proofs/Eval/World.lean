import LoxLang.Eval.Call
import LoxLang.Proofs.Scope.Alike

/-!
Two heaps in step. Programs that run alike make the same objects in the same order, so that addresses
agree and values are equal; the frames bind the same values, under names that correspond by a renaming
of each frame. A world is two such heaps with these renamings. Every function in it has its place in
the text: its body was walked in layers that its closure's frames were opened for.

Worlds only grow. New names are bound in the frames that running code has opened and in no older frame.
-/

namespace LoxLang

open Scope

namespace Heap

/-- A frame has a binding of a name. -/
def Binds (h : Heap) (a : Address) (name : String) : Prop :=
  (h.frame a).bindings.contains name = true

/-- Frames of calls and of receivers are inside the frame that the called function closes over. -/
def Hangs (h : Heap) (enclosing : Option Address) : Origin → Prop
  | .call d => ∃ f < h.functions.size,
    (h.function f).decl = d ∧ enclosing = some (h.function f).closure
  | .receiver => ∃ f < h.functions.size, enclosing = some (h.function f).closure
  | _ => True

end Heap

structure World where
  left : Heap
  right : Heap
  /-- The name on the right for a name on the left, in each frame. -/
  rename : Address → Equiv.Perm String

namespace World

/-- A later world, in which no frame below a limit has new names. -/
structure Le (limit : Nat) (W W' : World) : Prop where
  frames : W.left.frames.size ≤ W'.left.frames.size
  origin : ∀ a < W.left.frames.size, (W'.left.frame a).origin = (W.left.frame a).origin
  enclosing : ∀ a < W.left.frames.size, (W'.left.frame a).enclosing = (W.left.frame a).enclosing
  rename : ∀ a < W.left.frames.size, W'.rename a = W.rename a
  binds : ∀ a < W.left.frames.size, ∀ name, W.left.Binds a name → W'.left.Binds a name
  closed : ∀ a < W.left.frames.size, a < limit →
    ∀ name, W'.left.Binds a name → W.left.Binds a name
  functions : W.left.functions.size ≤ W'.left.functions.size
  function : ∀ a < W.left.functions.size,
    W'.left.function a = W.left.function a ∧ W'.right.function a = W.right.function a
  classes : W.left.classes.size ≤ W'.left.classes.size
  classObject : ∀ a < W.left.classes.size, W'.left.classObject a = W.left.classObject a
  instances : W.left.instances.size ≤ W'.left.instances.size
  classOf : ∀ a < W.left.instances.size,
    (W'.left.instanceObject a).classAddress = (W.left.instanceObject a).classAddress

namespace Le

variable {limit limit' : Nat} {W W₁ W₂ : World}

theorem refl (limit : Nat) (W : World) : Le limit W W where
  frames := Nat.le_refl _
  origin _ _ := rfl
  enclosing _ _ := rfl
  rename _ _ := rfl
  binds _ _ _ h := h
  closed _ _ _ _ h := h
  functions := Nat.le_refl _
  function _ _ := ⟨rfl, rfl⟩
  classes := Nat.le_refl _
  classObject _ _ := rfl
  instances := Nat.le_refl _
  classOf _ _ := rfl

theorem trans (h : Le limit W W₁) (h' : Le limit W₁ W₂) : Le limit W W₂ where
  frames := Nat.le_trans h.frames h'.frames
  origin a ha := (h'.origin a (Nat.lt_of_lt_of_le ha h.frames)).trans (h.origin a ha)
  enclosing a ha := (h'.enclosing a (Nat.lt_of_lt_of_le ha h.frames)).trans (h.enclosing a ha)
  rename a ha := (h'.rename a (Nat.lt_of_lt_of_le ha h.frames)).trans (h.rename a ha)
  binds a ha name hn := h'.binds a (Nat.lt_of_lt_of_le ha h.frames) name (h.binds a ha name hn)
  closed a ha hlimit name hn :=
    h.closed a ha hlimit name (h'.closed a (Nat.lt_of_lt_of_le ha h.frames) hlimit name hn)
  functions := Nat.le_trans h.functions h'.functions
  function a ha := by
    obtain ⟨hleft, hright⟩ := h.function a ha
    obtain ⟨hleft', hright'⟩ := h'.function a (Nat.lt_of_lt_of_le ha h.functions)
    exact ⟨hleft'.trans hleft, hright'.trans hright⟩
  classes := Nat.le_trans h.classes h'.classes
  classObject a ha :=
    (h'.classObject a (Nat.lt_of_lt_of_le ha h.classes)).trans (h.classObject a ha)
  instances := Nat.le_trans h.instances h'.instances
  classOf a ha := (h'.classOf a (Nat.lt_of_lt_of_le ha h.instances)).trans (h.classOf a ha)

theorem weaken (h : Le limit W W₁) (hlimit : limit' ≤ limit) : Le limit' W W₁ :=
  { h with closed := fun a ha hlt => h.closed a ha (Nat.lt_of_lt_of_le hlt hlimit) }

end Le

/-! ### Places -/

/-- A frame was opened for a layer, and binds the names that are ready there. -/
structure Fits (W : World) (a : Address) (l : Layer) : Prop where
  size : a < W.left.frames.size
  origin : (W.left.frame a).origin = l.origin
  rename : W.rename a = l.rename
  ready : ∀ name, l.names.find? name = some true → W.left.Binds a name

/-- The frames from an address outwards are those of layers, and the last one is that of globals. -/
def Matches (W : World) : Address → Layers → Prop
  | a, [] => a = Heap.globals
  | a, l :: Γ => W.Fits a l ∧ ∃ b, (W.left.frame a).enclosing = some b ∧ W.Matches b Γ

section

variable (K : Layers → Reference → Reference → Prop) (L : Nat → Nat → Prop)

/-- A function that a program can hold: a body with its place. An initializer is bound to a
receiver. -/
structure Plain (W : World) (f : Address) : Prop where
  size : f < W.left.functions.size
  place : ∃ Γ, Alike K L Γ (.decl (W.left.function f).decl (W.right.function f).decl) ∧
    W.Matches (W.left.function f).closure Γ
  bound : (W.left.function f).isInitializer = true →
    (W.left.frame (W.left.function f).closure).origin = .receiver

/-- A function in the table of a class, whose receiver is still missing. -/
structure Method (W : World) (f : Address) : Prop where
  size : f < W.left.functions.size
  place : ∃ Γ, Alike K L (.receiver :: Γ) (.decl (W.left.function f).decl (W.right.function f).decl) ∧
    W.Matches (W.left.function f).closure Γ

def Valid (W : World) : Value → Prop
  | .function f => W.Plain K L f
  | .classRef c => c < W.left.classes.size
  | .object i => i < W.left.instances.size
  | _ => True

/-- The frames of a world: those on the right are those on the left with their names changed, and
the frames of receivers and superclasses hold what they are for. -/
structure GoodFrames (W : World) : Prop where
  frames_size : W.right.frames.size = W.left.frames.size
  bindings : ∀ a, (W.right.frame a).bindings = (W.left.frame a).bindings.rename (W.rename a)
  enclosing : ∀ a, (W.right.frame a).enclosing = (W.left.frame a).enclosing
  linked : W.left.Linked
  globals : 0 < W.left.frames.size
  outermost : (W.left.frame Heap.globals).enclosing = none
  global_names : W.rename Heap.globals = .refl _
  global_origin : (W.left.frame Heap.globals).origin = .globals
  values : ∀ a name v, (W.left.frame a).bindings.find? name = some v → W.Valid K L v
  receiver : ∀ a < W.left.frames.size, (W.left.frame a).origin = .receiver →
    W.rename a = .refl _ ∧ ∃ i < W.left.instances.size,
      (W.left.frame a).bindings = [(receiverName, .object i)]
  superclass : ∀ a < W.left.frames.size, (W.left.frame a).origin = .superclass →
    W.rename a = .refl _ ∧ ∃ c < W.left.classes.size,
      (W.left.frame a).bindings = [(superclassName, .classRef c)]
  hangs : ∀ a < W.left.frames.size,
    W.left.Hangs (W.left.frame a).enclosing (W.left.frame a).origin

structure GoodFunctions (W : World) : Prop where
  functions_size : W.right.functions.size = W.left.functions.size
  functions : ∀ f, (W.right.function f).closure = (W.left.function f).closure ∧
    (W.right.function f).isInitializer = (W.left.function f).isInitializer

structure GoodClasses (W : World) : Prop where
  classes : W.right.classes = W.left.classes
  superclasses : ∀ c < W.left.classes.size, ∀ up : Nat,
    (W.left.classObject c).superclass = some up → up < c
  methods : ∀ c < W.left.classes.size, ∀ name f,
    (W.left.classObject c).methods.find? name = some f → W.Method K L f

structure GoodInstances (W : World) : Prop where
  instances : W.right.instances = W.left.instances
  classOf : ∀ i < W.left.instances.size,
    (W.left.instanceObject i).classAddress < W.left.classes.size
  fields : ∀ i < W.left.instances.size, ∀ name v,
    (W.left.instanceObject i).fields.find? name = some v → W.Valid K L v

structure Good (W : World) : Prop extends W.GoodFrames K L, W.GoodFunctions, W.GoodClasses K L,
  W.GoodInstances K L

/-- What a frame has to be to be added. -/
structure NewFrame (W : World) (f f' : Frame) (ρ : Equiv.Perm String) : Prop where
  bindings : f'.bindings = f.bindings.rename ρ
  enclosing : ∃ b < W.left.frames.size, f.enclosing = some b ∧ f'.enclosing = some b
  values : ∀ name v, f.bindings.find? name = some v → W.Valid K L v
  receiver : f.origin = .receiver → ρ = .refl _ ∧ ∃ i < W.left.instances.size,
    f.bindings = [(receiverName, .object i)]
  superclass : f.origin = .superclass → ρ = .refl _ ∧ ∃ c < W.left.classes.size,
    f.bindings = [(superclassName, .classRef c)]
  hangs : W.left.Hangs f.enclosing f.origin

end

/-! ### Growth -/

section

variable {K K' : Layers → Reference → Reference → Prop} {L : Nat → Nat → Prop}
  {limit : Nat} {W W' : World} {a : Address} {Γ : Layers}

theorem Fits.mono {l : Layer} (hle : W.Le limit W') (h : W.Fits a l) : W'.Fits a l where
  size := Nat.lt_of_lt_of_le h.size hle.frames
  origin := (hle.origin a h.size).trans h.origin
  rename := (hle.rename a h.size).trans h.rename
  ready name hname := hle.binds a h.size name (h.ready name hname)

theorem Matches.mono (hle : W.Le limit W') (h : W.Matches a Γ) : W'.Matches a Γ := by
  induction Γ generalizing a with
  | nil => exact h
  | cons l Γ ih =>
      obtain ⟨hfits, b, hb, hmatches⟩ := h
      exact ⟨hfits.mono hle, b, (hle.enclosing a hfits.size).trans hb, ih hmatches⟩

theorem Matches.size (hgood : W.Good K L) (h : W.Matches a Γ) : a < W.left.frames.size := by
  cases Γ with
  | nil =>
      cases h
      exact hgood.globals
  | cons l Γ => exact h.1.size

theorem Plain.mono (hgood : W.Good K L) (hle : W.Le limit W') {f : Address} (h : W.Plain K L f) :
    W'.Plain K L f := by
  obtain ⟨hleft, hright⟩ := hle.function f h.size
  obtain ⟨Γ, halike, hmatches⟩ := h.place
  constructor
  · exact Nat.lt_of_lt_of_le h.size hle.functions
  · rw [hleft, hright]
    exact ⟨Γ, halike, hmatches.mono hle⟩
  · rw [hleft]
    intro hinit
    rw [hle.origin _ (hmatches.size hgood)]
    exact h.bound hinit

theorem Method.mono (hle : W.Le limit W') {f : Address} (h : W.Method K L f) : W'.Method K L f := by
  obtain ⟨hleft, hright⟩ := hle.function f h.size
  obtain ⟨Γ, halike, hmatches⟩ := h.place
  constructor
  · exact Nat.lt_of_lt_of_le h.size hle.functions
  · rw [hleft, hright]
    exact ⟨Γ, halike, hmatches.mono hle⟩

theorem Valid.mono (hgood : W.Good K L) (hle : W.Le limit W') {v : Value} (h : W.Valid K L v) :
    W'.Valid K L v := by
  cases v with
  | function f => exact Plain.mono hgood hle h
  | classRef c => exact Nat.lt_of_lt_of_le h hle.classes
  | object i => exact Nat.lt_of_lt_of_le h hle.instances
  | _ => trivial

theorem hangs_mono (hle : W.Le limit W') {enclosing : Option Address} {o : Origin}
    (h : W.left.Hangs enclosing o) : W'.left.Hangs enclosing o := by
  cases o with
  | call d =>
      obtain ⟨f, hf, hdecl, hclosure⟩ := h
      have heq := (hle.function f hf).1
      exact ⟨f, Nat.lt_of_lt_of_le hf hle.functions, heq ▸ hdecl, heq ▸ hclosure⟩
  | receiver =>
      obtain ⟨f, hf, hclosure⟩ := h
      exact ⟨f, Nat.lt_of_lt_of_le hf hle.functions, (hle.function f hf).1 ▸ hclosure⟩
  | _ => trivial

/-! ### What is known of references and lines -/

/-- A good world stays good if other things are known of the code of all its functions. -/
theorem Good.map {L' : Nat → Nat → Prop} (h : W.Good K L)
    (halike : ∀ f < W.left.functions.size, ∀ Γ,
      Alike K L Γ (.decl (W.left.function f).decl (W.right.function f).decl) →
        Alike K' L' Γ (.decl (W.left.function f).decl (W.right.function f).decl)) :
    W.Good K' L' := by
  have hmethod : ∀ {f}, W.Method K L f → W.Method K' L' f := by
    rintro f ⟨hsize, Γ, hcode, hmatches⟩
    exact ⟨hsize, Γ, halike f hsize _ hcode, hmatches⟩
  have hvalid : ∀ {v}, W.Valid K L v → W.Valid K' L' v := by
    intro v hv
    cases v with
    | function f =>
        obtain ⟨hsize, ⟨Γ, hcode, hmatches⟩, hbound⟩ := hv
        exact ⟨hsize, ⟨Γ, halike f hsize _ hcode, hmatches⟩, hbound⟩
    | _ => exact hv
  refine ⟨{ h.toGoodFrames with values := ?_ }, h.toGoodFunctions,
    { h.toGoodClasses with methods := ?_ }, { h.toGoodInstances with fields := ?_ }⟩
  · exact fun a name v hv => hvalid (h.values a name v hv)
  · exact fun c hc name f hf => hmethod (h.methods c hc name f hf)
  · exact fun i hi name v hv => hvalid (h.fields i hi name v hv)

/-- A good world stays good as more is known of references. -/
theorem Good.imp (hK : ∀ Γ ref ref', K Γ ref ref' → K' Γ ref ref') (h : W.Good K L) :
    W.Good K' L :=
  h.map fun _ _ _ hcode => hcode.mono hK

/-! ### What a change leaves alone -/

theorem GoodFrames.mono (hgood : W.Good K L) (hle : W.Le limit W')
    (hleft : W'.left.frames = W.left.frames) (hright : W'.right.frames = W.right.frames)
    (hrename : W'.rename = W.rename) : W'.GoodFrames K L := by
  have hframe : ∀ a, W'.left.frame a = W.left.frame a := fun a => by rw [Heap.frame, hleft, Heap.frame]
  have hframe' : ∀ a, W'.right.frame a = W.right.frame a := fun a => by
    rw [Heap.frame, hright, Heap.frame]
  constructor
  · rw [hleft, hright, hgood.frames_size]
  · exact fun a => by rw [hframe, hframe', hrename, hgood.bindings]
  · exact fun a => by rw [hframe, hframe', hgood.enclosing]
  · exact fun a b hb => hgood.linked a b (hframe a ▸ hb)
  · exact hleft ▸ hgood.globals
  · rw [hframe, hgood.outermost]
  · rw [hrename, hgood.global_names]
  · rw [hframe, hgood.global_origin]
  · exact fun a name v hv => (hgood.values a name v (hframe a ▸ hv)).mono hgood hle
  · intro a ha horigin
    rw [hframe] at horigin ⊢
    rw [hrename]
    obtain ⟨hname, i, hi, hbindings⟩ := hgood.receiver a (hleft ▸ ha) horigin
    exact ⟨hname, i, Nat.lt_of_lt_of_le hi hle.instances, hbindings⟩
  · intro a ha horigin
    rw [hframe] at horigin ⊢
    rw [hrename]
    obtain ⟨hname, c, hc, hbindings⟩ := hgood.superclass a (hleft ▸ ha) horigin
    exact ⟨hname, c, Nat.lt_of_lt_of_le hc hle.classes, hbindings⟩
  · intro a ha
    rw [hframe]
    exact hangs_mono hle (hgood.hangs a (hleft ▸ ha))

theorem GoodFunctions.mono (hgood : W.GoodFunctions) (hleft : W'.left.functions = W.left.functions)
    (hright : W'.right.functions = W.right.functions) : W'.GoodFunctions := by
  constructor
  · rw [hleft, hright, hgood.functions_size]
  · intro f
    rw [Heap.function, Heap.function, hleft, hright]
    exact hgood.functions f

theorem GoodClasses.mono (hgood : W.GoodClasses K L) (hle : W.Le limit W')
    (hleft : W'.left.classes = W.left.classes) (hright : W'.right.classes = W.right.classes) :
    W'.GoodClasses K L := by
  have hclass : ∀ c, W'.left.classObject c = W.left.classObject c := fun c => by
    rw [Heap.classObject, hleft, Heap.classObject]
  constructor
  · rw [hleft, hright, hgood.classes]
  · exact fun c hc up hup => hgood.superclasses c (hleft ▸ hc) up (hclass c ▸ hup)
  · exact fun c hc name f hf => (hgood.methods c (hleft ▸ hc) name f (hclass c ▸ hf)).mono hle

theorem GoodInstances.mono (hgood : W.Good K L) (hle : W.Le limit W')
    (hleft : W'.left.instances = W.left.instances)
    (hright : W'.right.instances = W.right.instances) : W'.GoodInstances K L := by
  have hinstance : ∀ i, W'.left.instanceObject i = W.left.instanceObject i := fun i => by
    rw [Heap.instanceObject, hleft, Heap.instanceObject]
  constructor
  · rw [hleft, hright, hgood.instances]
  · intro i hi
    rw [hinstance]
    exact Nat.lt_of_lt_of_le (hgood.classOf i (hleft ▸ hi)) hle.classes
  · exact fun i hi name v hv =>
      (hgood.fields i (hleft ▸ hi) name v (hinstance i ▸ hv)).mono hgood hle

/-! ### New objects -/

/-- A new frame on either side. -/
def addFrame (f f' : Frame) (ρ : Equiv.Perm String) (W : World) : World where
  left := W.left.addFrame f
  right := W.right.addFrame f'
  rename a := if a = W.left.frames.size then ρ else W.rename a

theorem le_addFrame (f f' : Frame) (ρ : Equiv.Perm String) : W.Le limit (W.addFrame f f' ρ) := by
  have hframe : ∀ a < W.left.frames.size, (W.addFrame f f' ρ).left.frame a = W.left.frame a := by
    intro a ha
    change (W.left.addFrame f).frame a = _
    rw [Heap.frame_addFrame, if_neg (Nat.ne_of_lt ha)]
  constructor
  case frames => simp [addFrame]
  case rename => exact fun a ha => if_neg (Nat.ne_of_lt ha)
  case binds => exact fun a ha name hn => by rwa [Heap.Binds, hframe a ha]
  case closed => exact fun a ha _ name hn => by rwa [Heap.Binds, hframe a ha] at hn
  case function => exact fun _ _ => ⟨rfl, rfl⟩
  case origin => exact fun a ha => by rw [hframe a ha]
  case enclosing => exact fun a ha => by rw [hframe a ha]
  case functions | classes | instances => exact Nat.le_refl _
  case classObject | classOf => exact fun _ _ => rfl

theorem Good.addFrame {f f' : Frame} {ρ : Equiv.Perm String} (hgood : W.Good K L)
    (hnew : W.NewFrame K L f f' ρ) : (W.addFrame f f' ρ).Good K L := by
  have hle : W.Le 0 _ := W.le_addFrame f f' ρ
  have hleft : ∀ a : Nat, (W.addFrame f f' ρ).left.frame a =
      if a = W.left.frames.size then f else W.left.frame a := W.left.frame_addFrame f
  have hright : ∀ a : Nat, (W.addFrame f f' ρ).right.frame a =
      if a = W.left.frames.size then f' else W.right.frame a := by
    rw [← hgood.frames_size]
    exact W.right.frame_addFrame f'
  have hglobals : Heap.globals ≠ W.left.frames.size := Nat.ne_of_lt hgood.globals
  have hsize : (W.addFrame f f' ρ).left.frames.size = W.left.frames.size + 1 :=
    W.left.frames_size_addFrame f
  refine ⟨?_, hgood.toGoodFunctions.mono rfl rfl, hgood.toGoodClasses.mono hle rfl rfl, .mono hgood hle rfl rfl⟩
  constructor
  case frames_size =>
    rw [hsize, ← hgood.frames_size]
    exact W.right.frames_size_addFrame f'
  case bindings =>
    intro a
    rw [hleft, hright]
    simp only [World.addFrame]
    split
    · exact hnew.bindings
    · exact hgood.bindings a
  case enclosing =>
    intro a
    rw [hleft, hright]
    split
    · obtain ⟨b, -, hb, hb'⟩ := hnew.enclosing
      rw [hb, hb']
    · exact hgood.enclosing a
  case linked =>
    intro a b hb
    rw [hleft] at hb
    split at hb
    · obtain ⟨c, hc, hfc, -⟩ := hnew.enclosing
      rw [hfc] at hb
      cases hb
      omega
    · exact hgood.linked a b hb
  case globals =>
    rw [hsize]
    exact Nat.succ_pos _
  case outermost =>
    rw [hleft, if_neg hglobals]
    exact hgood.outermost
  case global_names => exact (if_neg hglobals).trans hgood.global_names
  case global_origin =>
    rw [hleft, if_neg hglobals]
    exact hgood.global_origin
  case values =>
    intro a name v hv
    rw [hleft] at hv
    split at hv
    · exact (hnew.values name v hv).mono hgood hle
    · exact (hgood.values a name v hv).mono hgood hle
  case receiver =>
    intro a ha horigin
    rw [hsize] at ha
    rw [hleft] at horigin ⊢
    simp only [World.addFrame]
    split at horigin
    case isTrue heq =>
      rw [if_pos heq, if_pos heq]
      exact hnew.receiver horigin
    case isFalse hne =>
      rw [if_neg hne, if_neg hne]
      exact hgood.receiver a (by omega) horigin
  case superclass =>
    intro a ha horigin
    rw [hsize] at ha
    rw [hleft] at horigin ⊢
    simp only [World.addFrame]
    split at horigin
    case isTrue heq =>
      rw [if_pos heq, if_pos heq]
      exact hnew.superclass horigin
    case isFalse hne =>
      rw [if_neg hne, if_neg hne]
      exact hgood.superclass a (by omega) horigin
  case hangs =>
    intro a ha
    rw [hsize] at ha
    rw [hleft]
    split
    · exact hangs_mono hle hnew.hangs
    · exact hangs_mono hle (hgood.hangs a (by omega))

theorem frame_new (f f' : Frame) (ρ : Equiv.Perm String) (W : World) :
    (W.addFrame f f' ρ).left.frame W.left.frames.size = f :=
  (W.left.frame_addFrame f _).trans (if_pos rfl)

/-- A new frame that is opened for a layer, inside the frames of the layers around it. -/
theorem Matches.addFrame {f f' : Frame} {l : Layer} (h : W.Matches a Γ) (horigin : f.origin = l.origin)
    (henclosing : f.enclosing = some a)
    (hready : ∀ name, l.names.find? name = some true → f.bindings.contains name = true) :
    (W.addFrame f f' l.rename).Matches W.left.frames.size (l :: Γ) := by
  have hframe := W.frame_new f f' l.rename
  have hle : W.Le 0 _ := W.le_addFrame f f' l.rename
  refine ⟨⟨?_, ?_, if_pos rfl, fun name hname => ?_⟩, a, ?_, h.mono hle⟩
  · rw [World.addFrame, Heap.frames_size_addFrame]
    exact Nat.lt_succ_self _
  · rw [hframe, horigin]
  · rw [Heap.Binds, hframe]
    exact hready name hname
  · rw [hframe, henclosing]

/-- A new function on either side. -/
def addFunction (f f' : FunctionObject) (W : World) : World where
  left := W.left.addFunction f
  right := W.right.addFunction f'
  rename := W.rename

theorem le_addFunction (hsize : W.right.functions.size = W.left.functions.size)
    (f f' : FunctionObject) : W.Le limit (W.addFunction f f') := by
  have hne : ∀ a < W.left.functions.size, ¬a = W.left.functions.size := fun a ha => Nat.ne_of_lt ha
  constructor
  case functions => simp [addFunction]
  case function =>
    intro a ha
    constructor
    · exact (W.left.function_addFunction f a).trans (if_neg (hne a ha))
    · exact (W.right.function_addFunction f' a).trans (if_neg (hsize ▸ hne a ha))
  case frames | classes | instances => exact Nat.le_refl _
  case origin | enclosing | rename | classObject | classOf => exact fun _ _ => rfl
  case binds => exact fun _ _ _ h => h
  case closed => exact fun _ _ _ _ h => h

theorem Good.addFunction {f f' : FunctionObject} (hgood : W.Good K L)
    (hclosure : f'.closure = f.closure) (hinit : f'.isInitializer = f.isInitializer) :
    (W.addFunction f f').Good K L := by
  have hle : W.Le 0 _ := W.le_addFunction hgood.functions_size f f'
  refine ⟨.mono hgood hle rfl rfl rfl, ?_, hgood.toGoodClasses.mono hle rfl rfl, .mono hgood hle rfl rfl⟩
  constructor
  case functions_size => simp [World.addFunction, hgood.functions_size]
  case functions =>
    intro a
    have hleft := W.left.function_addFunction f a
    have hright := W.right.function_addFunction f' a
    rw [hgood.functions_size] at hright
    simp only [World.addFunction, hleft, hright]
    split
    · exact ⟨hclosure, hinit⟩
    · exact hgood.functions a

theorem GoodFunctions.function_new (h : W.GoodFunctions) (f f' : FunctionObject) :
    W.left.functions.size < (W.addFunction f f').left.functions.size ∧
      (W.addFunction f f').left.function W.left.functions.size = f ∧
        (W.addFunction f f').right.function W.left.functions.size = f' := by
  refine ⟨?_, (W.left.function_addFunction f _).trans (if_pos rfl), ?_⟩
  · rw [World.addFunction, Heap.functions_size_addFunction]
    exact Nat.lt_succ_self _
  · exact (W.right.function_addFunction f' _).trans (if_pos h.functions_size.symm)

/-- A new class, the same on either side. -/
def addClass (c : ClassObject) (W : World) : World where
  left := W.left.addClass c
  right := W.right.addClass c
  rename := W.rename

theorem le_addClass (c : ClassObject) : W.Le limit (W.addClass c) := by
  constructor
  case classes => simp [addClass]
  case classObject =>
    exact fun a ha => (W.left.classObject_addClass c a).trans (if_neg (Nat.ne_of_lt ha))
  case frames | functions | instances => exact Nat.le_refl _
  case origin | enclosing | rename | classOf => exact fun _ _ => rfl
  case function => exact fun _ _ => ⟨rfl, rfl⟩
  case binds => exact fun _ _ _ h => h
  case closed => exact fun _ _ _ _ h => h

theorem Good.addClass {c : ClassObject} (hgood : W.Good K L)
    (hup : ∀ up, c.superclass = some up → up < W.left.classes.size)
    (hmethods : ∀ name f, c.methods.find? name = some f → W.Method K L f) :
    (W.addClass c).Good K L := by
  have hle : W.Le 0 _ := W.le_addClass c
  have hclass : ∀ a : Nat, (W.addClass c).left.classObject a =
      if a = W.left.classes.size then c else W.left.classObject a := W.left.classObject_addClass c
  have hsize : (W.addClass c).left.classes.size = W.left.classes.size + 1 :=
    W.left.classes_size_addClass c
  refine ⟨.mono hgood hle rfl rfl rfl, hgood.toGoodFunctions.mono rfl rfl, ?_, .mono hgood hle rfl rfl⟩
  constructor
  case classes =>
    change W.right.classes.push c = W.left.classes.push c
    rw [hgood.classes]
  case superclasses =>
    intro a ha up hfound
    rw [hsize] at ha
    rw [hclass] at hfound
    split at hfound
    case isTrue heq => exact heq ▸ hup up hfound
    case isFalse hne => exact hgood.superclasses a (by omega) up hfound
  case methods =>
    intro a ha name f hfound
    rw [hsize] at ha
    rw [hclass] at hfound
    split at hfound
    case isTrue heq => exact (hmethods name f hfound).mono hle
    case isFalse hne => exact (hgood.methods a (by omega) name f hfound).mono hle

/-- A new instance without fields, the same on either side. -/
def addInstance (c : Address) (W : World) : World where
  left := W.left.addInstance ⟨c, []⟩
  right := W.right.addInstance ⟨c, []⟩
  rename := W.rename

theorem le_addInstance (c : Address) : W.Le limit (W.addInstance c) := by
  constructor
  case instances => simp [addInstance]
  case classOf =>
    intro a ha
    have heq := (W.left.instanceObject_addInstance ⟨c, []⟩ a).trans (if_neg (Nat.ne_of_lt ha))
    exact congrArg Instance.classAddress heq
  case frames | functions | classes => exact Nat.le_refl _
  case origin | enclosing | rename | classObject => exact fun _ _ => rfl
  case function => exact fun _ _ => ⟨rfl, rfl⟩
  case binds => exact fun _ _ _ h => h
  case closed => exact fun _ _ _ _ h => h

theorem Good.addInstance {c : Address} (hgood : W.Good K L) (hc : c < W.left.classes.size) :
    (W.addInstance c).Good K L := by
  have hle : W.Le 0 _ := W.le_addInstance c
  have hinstance : ∀ a : Nat, (W.addInstance c).left.instanceObject a =
      if a = W.left.instances.size then ⟨c, []⟩ else W.left.instanceObject a :=
    W.left.instanceObject_addInstance ⟨c, []⟩
  have hsize : (W.addInstance c).left.instances.size = W.left.instances.size + 1 :=
    W.left.instances_size_addInstance ⟨c, []⟩
  refine ⟨.mono hgood hle rfl rfl rfl, hgood.toGoodFunctions.mono rfl rfl, hgood.toGoodClasses.mono hle rfl rfl, ?_⟩
  constructor
  case instances =>
    change W.right.instances.push ⟨c, []⟩ = W.left.instances.push ⟨c, []⟩
    rw [hgood.instances]
  case classOf =>
    intro a ha
    rw [hsize] at ha
    rw [hinstance]
    split
    · exact hc
    case isFalse hne => exact hgood.classOf a (by omega)
  case fields =>
    intro a ha name v hv
    rw [hsize] at ha
    rw [hinstance] at hv
    split at hv
    · cases hv
    case isFalse hne => exact (hgood.fields a (by omega) name v hv).mono hgood hle

/-! ### Changes -/

/-- A binding in a frame, over the one that it has there. -/
def define (a : Address) (name : String) (v : Value) (W : World) : World where
  left := W.left.define a name v
  right := W.right.define a (W.rename a name) v
  rename := W.rename

theorem binds_define {b : Address} (hb : b < W.left.frames.size) (name : String) (v : Value)
    (a : Address) (other : String) : (W.define b name v).left.Binds a other ↔
      a = b ∧ name = other ∨ W.left.Binds a other := by
  simp only [Heap.Binds, define, W.left.frame_define hb]
  split
  case isTrue heq =>
    rw [Bindings.contains_insert, heq]
    simp
  case isFalse hne => simp [hne]

theorem le_define {b : Address} (hb : b < W.left.frames.size) (name : String) (v : Value)
    (hlimit : limit ≤ b ∨ W.left.Binds b name) : W.Le limit (W.define b name v) := by
  constructor
  case frames => simp [define]
  case origin =>
    intro a _
    simp only [define, W.left.frame_define hb]
    split <;> rfl
  case enclosing =>
    intro a _
    simp only [define, W.left.frame_define hb]
    split <;> rfl
  case binds => exact fun a _ other h => (binds_define hb name v a other).mpr (.inr h)
  case closed =>
    intro a _ hlt other hother
    rcases (binds_define hb name v a other).mp hother with ⟨rfl, rfl⟩ | hbinds
    · exact hlimit.resolve_left (Nat.not_le_of_lt hlt)
    · exact hbinds
  case functions | classes | instances => exact Nat.le_refl _
  case rename | classObject | classOf => exact fun _ _ => rfl
  case function => exact fun _ _ => ⟨rfl, rfl⟩

theorem Good.define {b : Address} {name : String} {v : Value} (hgood : W.Good K L)
    (hb : b < W.left.frames.size) (hv : (W.define b name v).Valid K L v)
    (hreceiver : (W.left.frame b).origin ≠ .receiver)
    (hsuperclass : (W.left.frame b).origin ≠ .superclass) : (W.define b name v).Good K L := by
  have hle : W.Le b (W.define b name v) := W.le_define hb name v (.inl (Nat.le_refl b))
  have hleft : ∀ a, (W.define b name v).left.frame a =
      if a = b then { W.left.frame a with
        bindings := (W.left.frame a).bindings.insert name v } else W.left.frame a :=
    fun a => W.left.frame_define hb name v
  have hright : ∀ a, (W.define b name v).right.frame a =
      if a = b then { W.right.frame a with
        bindings := (W.right.frame a).bindings.insert (W.rename b name) v } else W.right.frame a :=
    fun a => W.right.frame_define (hgood.frames_size ▸ hb) _ v
  have hsize : (W.define b name v).left.frames.size = W.left.frames.size :=
    W.left.frames_size_define name v
  have hkept : ∀ {P : Frame → Prop} a,
      (∀ bindings, P { W.left.frame a with bindings := bindings } ↔ P (W.left.frame a)) →
        (P ((W.define b name v).left.frame a) ↔ P (W.left.frame a)) := by
    intro P a hP
    rw [hleft]
    split
    · exact hP _
    · rfl
  refine ⟨?_, hgood.toGoodFunctions.mono rfl rfl, hgood.toGoodClasses.mono hle rfl rfl, .mono hgood hle rfl rfl⟩
  constructor
  case frames_size =>
    rw [hsize, ← hgood.frames_size]
    exact W.right.frames_size_define _ v
  case bindings =>
    intro a
    rw [hleft, hright]
    simp only [World.define]
    split
    case isTrue heq =>
      subst heq
      simp only [hgood.bindings a]
      exact Bindings.insert_rename (W.rename a).injective _ name v
    case isFalse => exact hgood.bindings a
  case enclosing =>
    intro a
    rw [hleft, hright]
    split
    · exact hgood.enclosing a
    · exact hgood.enclosing a
  case linked =>
    intro a c hc
    exact hgood.linked a c ((hkept (P := fun f => f.enclosing = some c) a fun _ => Iff.rfl).mp hc)
  case globals => exact hsize ▸ hgood.globals
  case outermost =>
    exact (hkept (P := fun f => f.enclosing = none) _ fun _ => Iff.rfl).mpr hgood.outermost
  case global_names => exact hgood.global_names
  case global_origin =>
    exact (hkept (P := fun f => f.origin = .globals) _ fun _ => Iff.rfl).mpr hgood.global_origin
  case values =>
    intro a other w hw
    rw [hleft] at hw
    split at hw
    · simp only [Bindings.find?_insert] at hw
      split at hw
      · cases hw
        exact hv
      · exact (hgood.values a other w hw).mono hgood hle
    · exact (hgood.values a other w hw).mono hgood hle
  case receiver =>
    intro a ha horigin
    have hne : a ≠ b := by
      rintro rfl
      rw [hleft, if_pos rfl] at horigin
      exact hreceiver horigin
    rw [hleft, if_neg hne] at horigin ⊢
    exact hgood.receiver a (hsize ▸ ha) horigin
  case superclass =>
    intro a ha horigin
    have hne : a ≠ b := by
      rintro rfl
      rw [hleft, if_pos rfl] at horigin
      exact hsuperclass horigin
    rw [hleft, if_neg hne] at horigin ⊢
    exact hgood.superclass a (hsize ▸ ha) horigin
  case hangs =>
    intro a ha
    refine (hkept (P := fun f => (W.define b name v).left.Hangs f.enclosing f.origin) a
      fun _ => Iff.rfl).mpr ?_
    exact hangs_mono hle (hgood.hangs a (hsize ▸ ha))

/-- A field of an instance, the same on either side. -/
def setField (i : Address) (name : String) (v : Value) (W : World) : World where
  left := W.left.setField i name v
  right := W.right.setField i name v
  rename := W.rename

theorem le_setField {i : Address} (hi : i < W.left.instances.size) (name : String) (v : Value) :
    W.Le limit (W.setField i name v) := by
  constructor
  case instances => simp [setField]
  case classOf =>
    intro a _
    simp only [setField, W.left.instanceObject_setField hi]
    split <;> rfl
  case frames | functions | classes => exact Nat.le_refl _
  case origin | enclosing | rename | classObject => exact fun _ _ => rfl
  case function => exact fun _ _ => ⟨rfl, rfl⟩
  case binds => exact fun _ _ _ h => h
  case closed => exact fun _ _ _ _ h => h

theorem Good.setField {i : Address} {name : String} {v : Value} (hgood : W.Good K L)
    (hi : i < W.left.instances.size) (hv : W.Valid K L v) : (W.setField i name v).Good K L := by
  have hle : W.Le 0 _ := W.le_setField hi name v
  have hinstance : ∀ a, (W.setField i name v).left.instanceObject a =
      if a = i then { W.left.instanceObject a with
        fields := (W.left.instanceObject a).fields.insert name v } else W.left.instanceObject a :=
    fun a => W.left.instanceObject_setField hi name v
  have hsize : (W.setField i name v).left.instances.size = W.left.instances.size :=
    W.left.instances_size_setField name v
  refine ⟨.mono hgood hle rfl rfl rfl, hgood.toGoodFunctions.mono rfl rfl, hgood.toGoodClasses.mono hle rfl rfl, ?_⟩
  constructor
  case instances =>
    simp only [World.setField, Heap.setField, hgood.instances]
  case classOf =>
    intro a ha
    rw [hinstance]
    split
    · exact hgood.classOf a (hsize ▸ ha)
    · exact hgood.classOf a (hsize ▸ ha)
  case fields =>
    intro a ha other w hw
    rw [hsize] at ha
    rw [hinstance] at hw
    split at hw
    · simp only [Bindings.find?_insert] at hw
      split at hw
      · cases hw
        exact hv.mono hgood hle
      · exact (hgood.fields a ha other w hw).mono hgood hle
    · exact (hgood.fields a ha other w hw).mono hgood hle

end

end World

end LoxLang
