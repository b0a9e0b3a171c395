import LoxLang.Proofs.Store.Heap
import LoxLang.Proofs.Syntax.Relabel
import LoxLang.Store.Detail

/-!
Heaps without lines. Lines are in the code of functions, and in the code that frames were opened
for; no look-up and no text of a value depends on them, and every operation on a heap does on the
bare heap what it does on the heap.
-/

namespace LoxLang

def Frame.bare (f : Frame) : Frame :=
  { f with origin := f.origin.relabel .bare }

def FunctionObject.bare (f : FunctionObject) : FunctionObject :=
  { f with decl := f.decl.relabel .bare }

namespace Heap

/-- The heap with bare code. -/
def bare (h : Heap) : Heap :=
  { h with frames := h.frames.map Frame.bare, functions := h.functions.map FunctionObject.bare }

variable (h : Heap) (a : Address) (name : String)

/-! ### Parts -/

@[simp]
theorem frame_bare : h.bare.frame a = (h.frame a).bare := by
  simp only [frame, bare, Array.getD_eq_getD_getElem?, Array.getElem?_map]
  cases h.frames[a]? <;> rfl

@[simp]
theorem function_bare : h.bare.function a = (h.function a).bare := by
  simp only [function, bare, Array.getD_eq_getD_getElem?, Array.getElem?_map]
  cases h.functions[a]? <;> rfl

@[simp]
theorem classObject_bare : h.bare.classObject a = h.classObject a :=
  rfl

@[simp]
theorem instanceObject_bare : h.bare.instanceObject a = h.instanceObject a :=
  rfl

/-! ### Look-ups -/

@[simp]
theorem chain_bare : h.bare.chain a = h.chain a := by
  have hupTo : ∀ n a, h.bare.chainUpTo n a = h.chainUpTo n a := by
    intro n
    induction n with
    | zero => exact fun _ => rfl
    | succ n ih =>
        intro a
        simp only [chainUpTo, frame_bare, Frame.bare, ih]
  exact hupTo (a + 1) a

@[simp]
theorem locate_bare : h.bare.locate a name = h.locate a name := by
  simp [locate, Frame.bare]

@[simp]
theorem locateAt_bare (distance : Nat) :
    h.bare.locateAt a distance name = h.locateAt a distance name := by
  simp [locateAt, Frame.bare]

@[simp]
theorem valueIn_bare : h.bare.valueIn name = h.valueIn name := by
  funext f
  simp [valueIn, Frame.bare]

@[simp]
theorem getAt_bare (distance : Nat) : h.bare.getAt a distance name = h.getAt a distance name := by
  simp [getAt]

@[simp]
theorem findMethod?_bare (c : Address) : h.bare.findMethod? c name = h.findMethod? c name := by
  have hclasses : h.bare.classes = h.classes := rfl
  exact findMethod?_congr hclasses c name

/-! ### Operations -/

theorem addFrame_bare (f : Frame) : h.bare.addFrame f.bare = (h.addFrame f).bare := by
  simp [addFrame, bare]

theorem addFunction_bare (f : FunctionObject) :
    h.bare.addFunction f.bare = (h.addFunction f).bare := by
  simp [addFunction, bare]

theorem define_bare (v : Value) : h.bare.define a name v = (h.define a name v).bare := by
  have hframes : ∀ frames : Array Frame,
      (frames.map Frame.bare).modify a (fun f => { f with bindings := f.bindings.insert name v }) =
        (frames.modify a fun f => { f with bindings := f.bindings.insert name v }).map
          Frame.bare := by
    intro frames
    apply Array.ext_getElem?
    intro i
    simp only [Array.getElem?_modify, Array.getElem?_map]
    split
    · cases frames[i]? <;> rfl
    · rfl
  simp only [define, bare, hframes]

end Heap

/-! ### Texts -/

theorem Value.printed_bare (h : Heap) (v : Value) : v.printed h.bare = v.printed h := by
  cases v with
  | function f => simp [printed, FunctionObject.bare, FunctionDecl.name_relabel]
  | bool b => cases b <;> rfl
  | _ => rfl

theorem FunctionObject.detail_bare (f : FunctionObject) : f.bare.detail = f.detail := by
  unfold detail bare
  dsimp only
  rw [FunctionDecl.name_relabel, FunctionDecl.params_relabel, List.length_map]

theorem Value.detail_bare (h : Heap) (natives : List Native) (v : Value) :
    v.detail h.bare natives = v.detail h natives := by
  cases v with
  | function f =>
      unfold detail
      dsimp only
      rw [Heap.function_bare, FunctionObject.detail_bare]
  | classRef c =>
      unfold detail ClassObject.detail
      dsimp only
      simp only [Heap.classObject_bare]
  | object i =>
      unfold detail Instance.detail
      dsimp only
      simp only [Heap.classObject_bare, Heap.instanceObject_bare]
  | _ => rfl

end LoxLang
