import LoxLang.Session
import LoxLang.Store.Detail
import LoxLang.Proofs.Eval.Calls

/-!
Host functions. A host function sees the objects of the heap, but neither the frames nor the code of
functions; and what it gives back is data of its own or a value that programs can hold already. Such
functions are the same for two runs in lockstep, at each of their calls.
-/

namespace LoxLang

open Scope

/-- The two texts of a value do not tell two heaps apart. -/
def Value.SameTexts (h h' : Heap) (v : Value) : Prop :=
  v.printed h' = v.printed h ∧ ∀ natives, v.detail h' natives = v.detail h natives

/-- A value that a program can hold: data in itself, an object, or a function that is bound in a frame
or in a field. -/
def Heap.Holds (h : Heap) : Value → Prop
  | .function f => (∃ a name, (h.frame a).bindings.find? name = some (.function f)) ∨
      ∃ i < h.instances.size, ∃ name, (h.instanceObject i).fields.find? name = some (.function f)
  | .classRef c => c < h.classes.size
  | .object i => i < h.instances.size
  | _ => True

/-- Two heaps that look alike to a host function with some arguments. -/
structure Heap.SameSight (h h' : Heap) (arguments : List Value) : Prop where
  classes : h'.classes = h.classes
  instances : h'.instances = h.instances
  texts : ∀ v, v ∈ arguments ∨ h.Holds v → v.SameTexts h h'
  methods : ∀ c < h.classes.size, ∀ name f, (h.classObject c).methods.find? name = some f →
    (Value.function f).SameTexts h h'

structure Native.Faithful (native : Native) : Prop where
  same : ∀ (h h' : Heap) (n : Nat) (arguments : List Value), h.SameSight h' arguments →
    native.run ⟨h', n⟩ arguments = native.run ⟨h, n⟩ arguments
  held : ∀ (s : Sight) (arguments : List Value) (v : Value), native.run s arguments = .ok v →
    v ∈ arguments ∨ s.Holds v

/-- The clock looks at nothing but how often it has been asked. -/
theorem Native.faithful_clock (start : Float) (later : Nat → Float) :
    (clock start later).Faithful := by
  constructor
  · exact fun _ _ _ _ _ => rfl
  · rintro s arguments v ⟨rfl⟩
    exact .inr trivial

theorem Native.faithful_of_clock (start : Float) (later : Nat → Float) :
    ∀ native ∈ [clock start later], native.Faithful :=
  List.forall_mem_singleton.mpr (faithful_clock start later)

section

variable {K : Layers → Reference → Reference → Prop} {L : Nat → Nat → Prop} {W : World} {v : Value}

theorem Scope.Alike.detail_eq {Γ : Layers} {f f' : FunctionObject}
    (h : Alike K L Γ (.decl f.decl f'.decl)) (hinit : f'.isInitializer = f.isInitializer) :
    f'.detail = f.detail := by
  unfold FunctionObject.detail
  rw [h.name_eq, h.params_length, hinit]

theorem World.Good.sameTexts_function (hgood : W.Good K L) {Γ : Layers} {f : Address}
    (h : Alike K L Γ (.decl (W.left.function f).decl (W.right.function f).decl)) :
    (Value.function f).SameTexts W.left W.right := by
  constructor
  · unfold Value.printed
    dsimp only
    rw [h.name_eq]
  · intro natives
    unfold Value.detail
    dsimp only
    rw [h.detail_eq (hgood.functions f).2]

/-- A value has the same texts on either side. -/
theorem World.Good.sameTexts (hgood : W.Good K L) (hv : W.Valid K L v) :
    v.SameTexts W.left W.right := by
  cases v with
  | function f =>
      obtain ⟨Γ, halike, -⟩ := Plain.place hv
      exact hgood.sameTexts_function halike
  | classRef c =>
      refine ⟨hgood.printed_right hv, fun natives => ?_⟩
      have hclass : W.right.classObject = W.left.classObject := funext hgood.classObject_right
      unfold Value.detail ClassObject.detail
      dsimp only
      rw [hclass]
  | object i =>
      refine ⟨hgood.printed_right hv, fun natives => ?_⟩
      unfold Value.detail Instance.detail
      dsimp only
      rw [hgood.instanceObject_right, hgood.classObject_right]
  | _ => exact ⟨hgood.printed_right hv, fun natives => rfl⟩

theorem World.Good.valid_of_holds (hgood : W.Good K L) (h : W.left.Holds v) : W.Valid K L v := by
  cases v with
  | function f =>
      rcases h with ⟨a, name, hv⟩ | ⟨i, hi, name, hv⟩
      · exact hgood.values a name _ hv
      · exact hgood.fields i hi name _ hv
  | _ => exact h

/-- The heaps of a world look alike. -/
theorem World.Good.sameSight (hgood : W.Good K L) {arguments : List Value}
    (harguments : ∀ v ∈ arguments, W.Valid K L v) : W.left.SameSight W.right arguments := by
  refine ⟨hgood.classes, hgood.instances, ?_, ?_⟩
  · rintro v (hv | hv)
    · exact hgood.sameTexts (harguments v hv)
    · exact hgood.sameTexts (hgood.valid_of_holds hv)
  · intro c hc name f hf
    obtain ⟨-, Γ, halike, -⟩ := hgood.methods c hc name f hf
    exact hgood.sameTexts_function halike

theorem Native.Faithful.agrees {native : Native} (h : native.Faithful) : native.Agrees K L := by
  intro W hgood arguments harguments n
  constructor
  · exact h.same _ _ n _ (hgood.sameSight harguments)
  · intro v hresult
    rcases h.held _ _ _ hresult with hmem | hholds
    · exact harguments v hmem
    · exact hgood.valid_of_holds hholds

end

end LoxLang
