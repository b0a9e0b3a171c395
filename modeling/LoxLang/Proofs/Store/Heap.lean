import LoxLang.Store.Lookup

/-!
What the operations on a heap do to its parts, and the frames that a chain of links passes.
-/

namespace LoxLang

namespace Bindings

variable {α : Type}

@[simp]
theorem find?_nil (name : String) : find? ([] : Bindings α) name = none :=
  rfl

@[simp]
theorem contains_nil (name : String) : contains ([] : Bindings α) name = false :=
  rfl

theorem eq_of_find?_single {key name : String} {value v : α}
    (h : find? [(key, value)] name = some v) : key = name ∧ value = v := by
  rw [find?] at h
  split at h
  case isTrue hkey => exact ⟨hkey, Option.some.inj h⟩
  case isFalse => cases h

theorem contains_insert (b : Bindings α) (name other : String) (value : α) :
    (b.insert name value).contains other = true ↔ name = other ∨ b.contains other = true := by
  rw [contains, find?_insert]
  by_cases h : name = other
  · simp [h]
  · simp [h, contains]

theorem insert_insert (b : Bindings α) (name : String) (value value' : α) :
    (b.insert name value).insert name value' = b.insert name value' := by
  induction b with
  | nil => simp [insert]
  | cons p b ih =>
      obtain ⟨k, v⟩ := p
      by_cases hk : k = name
      · simp [insert, hk]
      · simp [insert, hk, ih]

theorem contains_iff (b : Bindings α) (name : String) :
    b.contains name = true ↔ ∃ value, b.find? name = some value :=
  Option.isSome_iff_exists

/-- The same values under other names. -/
def rename (ρ : String → String) (b : Bindings α) : Bindings α :=
  b.map fun p => (ρ p.1, p.2)

@[simp]
theorem rename_nil (ρ : String → String) : rename ρ ([] : Bindings α) = [] :=
  rfl

@[simp]
theorem rename_cons (ρ : String → String) (p : String × α) (b : Bindings α) :
    rename ρ (p :: b) = (ρ p.1, p.2) :: rename ρ b :=
  rfl

theorem rename_id (b : Bindings α) : rename id b = b := by
  simp [rename]

theorem find?_rename {ρ : String → String} (hρ : ρ.Injective) (b : Bindings α) (name : String) :
    (b.rename ρ).find? (ρ name) = b.find? name := by
  induction b with
  | nil => rfl
  | cons p b ih =>
      obtain ⟨k, v⟩ := p
      simp only [rename_cons, find?, hρ.eq_iff, ih]

theorem insert_rename {ρ : String → String} (hρ : ρ.Injective) (b : Bindings α) (name : String)
    (value : α) : (b.rename ρ).insert (ρ name) value = (b.insert name value).rename ρ := by
  induction b with
  | nil => rfl
  | cons p b ih =>
      obtain ⟨k, v⟩ := p
      simp only [rename_cons, insert, hρ.eq_iff, ih]
      split <;> rfl

end Bindings

namespace Heap

variable (h : Heap) {a b : Address}

/-! ### Parts -/

theorem frame_addFrame (f : Frame) (a : Address) :
    (h.addFrame f).frame a = if a = h.frames.size then f else h.frame a := by
  simp only [frame, addFrame, Array.getD_eq_getD_getElem?, Array.getElem?_push]
  split <;> rfl

theorem function_addFunction (f : FunctionObject) (a : Address) :
    (h.addFunction f).function a = if a = h.functions.size then f else h.function a := by
  simp only [function, addFunction, Array.getD_eq_getD_getElem?, Array.getElem?_push]
  split <;> rfl

theorem classObject_addClass (c : ClassObject) (a : Address) :
    (h.addClass c).classObject a = if a = h.classes.size then c else h.classObject a := by
  simp only [classObject, addClass, Array.getD_eq_getD_getElem?, Array.getElem?_push]
  split <;> rfl

theorem instanceObject_addInstance (i : Instance) (a : Address) :
    (h.addInstance i).instanceObject a =
      if a = h.instances.size then i else h.instanceObject a := by
  simp only [instanceObject, addInstance, Array.getD_eq_getD_getElem?, Array.getElem?_push]
  split <;> rfl

theorem frame_define (hb : b < h.frames.size) (name : String) (value : Value) :
    (h.define b name value).frame a =
      if a = b then { h.frame a with bindings := (h.frame a).bindings.insert name value }
      else h.frame a := by
  simp only [frame, define, Array.getD_eq_getD_getElem?, Array.getElem?_modify]
  by_cases hab : b = a
  · subst hab
    simp [hb]
  · have : ¬a = b := fun h => hab h.symm
    simp [hab, this]

theorem instanceObject_setField (hb : b < h.instances.size) (name : String) (value : Value) :
    (h.setField b name value).instanceObject a =
      if a = b then { h.instanceObject a with
        fields := (h.instanceObject a).fields.insert name value }
      else h.instanceObject a := by
  simp only [instanceObject, setField, Array.getD_eq_getD_getElem?, Array.getElem?_modify]
  by_cases hab : b = a
  · subst hab
    simp [hb]
  · have : ¬a = b := fun h => hab h.symm
    simp [hab, this]

@[simp]
theorem frames_size_addFrame (f : Frame) : (h.addFrame f).frames.size = h.frames.size + 1 := by
  simp [addFrame]

@[simp]
theorem functions_size_addFunction (f : FunctionObject) :
    (h.addFunction f).functions.size = h.functions.size + 1 := by
  simp [addFunction]

@[simp]
theorem classes_size_addClass (c : ClassObject) :
    (h.addClass c).classes.size = h.classes.size + 1 := by
  simp [addClass]

@[simp]
theorem instances_size_addInstance (i : Instance) :
    (h.addInstance i).instances.size = h.instances.size + 1 := by
  simp [addInstance]

@[simp]
theorem frames_size_define (name : String) (value : Value) :
    (h.define a name value).frames.size = h.frames.size := by
  simp [define]

@[simp]
theorem instances_size_setField (name : String) (value : Value) :
    (h.setField a name value).instances.size = h.instances.size := by
  simp [setField]

/-! ### Chains -/

/-- Every link leads to an older frame. -/
def Linked : Prop :=
  ∀ a b : Nat, (h.frame a).enclosing = some b → b < a

variable {h}

/-- Walks along links that lead to lower addresses need no more steps than the address says. -/
theorem upTo_eq {walk : Nat → Nat → List Nat} {link : Nat → Option Nat}
    (hwalk : ∀ n a, walk (n + 1) a = a :: match link a with
      | some b => walk n b
      | none => [])
    (hlink : ∀ a b, link a = some b → b < a) {n m a : Nat} (hn : a < n) (hm : a < m) :
    walk n a = walk m a := by
  induction n generalizing a m with
  | zero => omega
  | succ n ih =>
      cases m with
      | zero => omega
      | succ m =>
          rw [hwalk, hwalk]
          cases houter : link a with
          | none => rfl
          | some b =>
              have hb := hlink a b houter
              simp only [ih (a := b) (m := m) (by omega) (by omega)]

theorem chainUpTo_eq (hlinked : h.Linked) {n : Nat} (hn : a < n) : h.chainUpTo n a = h.chain a :=
  upTo_eq (fun _ _ => rfl) hlinked hn (Nat.lt_succ_self a)

/-- A chain goes on where the link of its first frame leads. -/
theorem chain_eq (hlinked : h.Linked) (a : Address) :
    h.chain a = a :: match (h.frame a).enclosing with
      | some outer => h.chain outer
      | none => [] := by
  rw [chain, chainUpTo]
  cases houter : (h.frame a).enclosing with
  | none => rfl
  | some b =>
      have hb := hlinked a b houter
      simp only [chainUpTo_eq hlinked hb]

theorem mem_chain_le (hlinked : h.Linked) {a f : Address} (hf : f ∈ h.chain a) : f ≤ a := by
  induction a using Nat.strongRecOn with
  | ind a ih =>
      rw [chain_eq hlinked, List.mem_cons] at hf
      rcases hf with rfl | hf
      · exact Nat.le_refl _
      · cases hlink : (h.frame a).enclosing with
        | none => simp [hlink] at hf
        | some b =>
            rw [hlink] at hf
            have hlt := hlinked a b hlink
            exact Nat.le_trans (ih b hlt hf) (Nat.le_of_lt hlt)

/-- A lineage goes on where the link of its first class leads. -/
theorem lineage_eq (hup : ∀ c up, (h.classObject c).superclass = some up → up < c) (c : Address) :
    h.lineage c = c :: match (h.classObject c).superclass with
      | some up => h.lineage up
      | none => [] := by
  rw [lineage, lineageUpTo]
  cases hsuperclass : (h.classObject c).superclass with
  | none => rfl
  | some up =>
      have hrest : h.lineageUpTo c up = h.lineageUpTo (up + 1) up :=
        upTo_eq (fun _ _ => rfl) hup (hup c up hsuperclass) (Nat.lt_succ_self up)
      simp only [lineage, hrest]

/-- A frame gives the value that it binds a name to. -/
theorem getAt_of_find? {d : Nat} {f : Address} {name : String} {v : Value}
    (hf : (h.chain a)[d]? = some f) (hv : (h.frame f).bindings.find? name = some v) :
    h.getAt a d name = .ok v := by
  simp [getAt, locateAt, hf, hv, Bindings.contains, Except.map, valueIn]

/-- A frame with one binding gives its value. -/
theorem getAt_of_single {d : Nat} {f : Address} {name : String} {v : Value}
    (hf : (h.chain a)[d]? = some f) (hbindings : (h.frame f).bindings = [(name, v)]) :
    h.getAt a d name = .ok v :=
  getAt_of_find? hf (by simp [hbindings, Bindings.find?])

/-- A name that the first frame binds is found there. -/
theorem locate_of_binds (hlinked : h.Linked) {name : String}
    (hbinds : (h.frame a).bindings.contains name = true) : h.locate a name = .ok a := by
  rw [locate, chain_eq hlinked, List.find?_cons, hbinds]

/-- The methods of a class depend on the classes only. -/
theorem findMethod?_congr {h h' : Heap} (hclasses : h'.classes = h.classes) (c : Address)
    (name : String) : h'.findMethod? c name = h.findMethod? c name := by
  have hclass : h'.classObject = h.classObject := by
    funext a
    rw [classObject, hclasses, classObject]
  have hlineage : ∀ n c, h'.lineageUpTo n c = h.lineageUpTo n c := by
    intro n
    induction n with
    | zero => exact fun _ => rfl
    | succ n ih => exact fun c => by simp only [lineageUpTo, hclass, ih]
  simp only [findMethod?, lineage, hlineage, hclass]

end Heap

end LoxLang
