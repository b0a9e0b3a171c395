import LoxLang.Proofs.Scope.Resolution
import LoxLang.Proofs.Store.Sound

/-!
The names that frames bind. While code runs in a frame, that frame may come to bind the names that the
code declares where it stands, and new frames the names that belong to what they are opened for. No
other frame comes to bind a name, and none loses one.
-/

namespace LoxLang

/-- The names that statements declare where they stand, not those declared within them. -/
def declaredNames (ss : List Stmt) : List String :=
  ss.filterMap Stmt.declared?

theorem declaredNames_cons_subset {s : Stmt} {ss : List Stmt} {names : List String}
    (h : declaredNames (s :: ss) ⊆ names) :
    (∀ name, s.declared? = some name → name ∈ names) ∧ declaredNames ss ⊆ names := by
  constructor
  · exact fun name hname => h (List.mem_filterMap.mpr ⟨s, List.mem_cons_self .., hname⟩)
  · intro name hname
    obtain ⟨s', hs', hname⟩ := List.mem_filterMap.mp hname
    exact h (List.mem_filterMap.mpr ⟨s', List.mem_cons_of_mem _ hs', hname⟩)

/-- The names that are declared directly in what a frame is opened for. -/
def Origin.declares : Origin → List String
  | globals => []
  | block body => declaredNames body
  | call decl => decl.params.map Token.lexeme ++ declaredNames decl.body
  | receiver => [receiverName]
  | superclass => [superclassName]

theorem mem_of_contains_argumentBindings {params : List Token} {arguments : List Value}
    {name : String} (h : (Eval.argumentBindings params arguments).contains name = true) :
    name ∈ params.map Token.lexeme := by
  have key : ∀ (names : List String) (arguments : List Value) (b : Bindings Value),
      ((names.zip arguments).foldl (fun b p => b.insert p.1 p.2) b).contains name = true →
        name ∈ names ∨ b.contains name = true := by
    intro names
    induction names with
    | nil => exact fun _ _ h => .inr h
    | cons other names ih =>
        intro arguments b h
        cases arguments with
        | nil => exact .inr h
        | cons v arguments =>
            rw [List.zip_cons_cons, List.foldl_cons] at h
            rcases ih arguments _ h with hmem | hinsert
            · exact .inl (List.mem_cons_of_mem _ hmem)
            · rcases (Bindings.contains_insert ..).mp hinsert with rfl | hold
              · exact .inl (List.mem_cons_self ..)
              · exact .inr hold
  exact (key _ _ [] h).resolve_right (by simp)

theorem Bindings.eq_of_contains_single {α : Type} {key name : String} {value : α}
    (h : contains [(key, value)] name = true) : name = key := by
  obtain ⟨v, hv⟩ := (contains_iff ..).mp h
  exact (eq_of_find?_single hv).1.symm

theorem FunctionDecl.Spelled.body {d : FunctionDecl} (h : d.Spelled) : SpelledStmts d.body := by
  obtain ⟨name, line, params, body⟩ := d
  exact h.2

namespace Heap

variable {h h' h'' : Heap} {a b f : Address} {name other : String} {names : List String} {v : Value}

/-- Every frame but that of the globals binds only names that are declared directly in what it was
opened for. -/
def Confined (h : Heap) : Prop :=
  ∀ a ≠ globals, ∀ name, h.Binds a name → name ∈ (h.frame a).origin.declares

/-- The functions of a heap are spelled as parsed ones. -/
def Spelled (h : Heap) : Prop :=
  ∀ f, (h.function f).decl.Spelled

/-- A later heap: frames stay what they were opened for, and keep the names that they bind. -/
structure Keeps (h h' : Heap) : Prop where
  frames : h.frames.size ≤ h'.frames.size
  origin : ∀ a < h.frames.size, (h'.frame a).origin = (h.frame a).origin
  binds : ∀ a name, h.Binds a name → h'.Binds a name

/-- A later heap in which of the frames that were there a single one may bind more names, and these
from a list only. -/
structure Adds (a : Address) (names : List String) (h h' : Heap) : Prop extends Keeps h h' where
  added : ∀ b name, h'.Binds b name → h.Binds b name ∨ (b = a ∧ name ∈ names) ∨
    (h.frames.size ≤ b ∧ name ∈ (h'.frame b).origin.declares)

theorem Binds.size (hname : h.Binds a name) : a < h.frames.size :=
  size_of_contains hname

/-! ### Later heaps -/

theorem Keeps.refl (h : Heap) : h.Keeps h :=
  ⟨Nat.le_refl _, fun _ _ => rfl, fun _ _ => id⟩

theorem Keeps.trans (hle : h.Keeps h') (hle' : h'.Keeps h'') : h.Keeps h'' where
  frames := Nat.le_trans hle.frames hle'.frames
  origin a ha := (hle'.origin a (Nat.lt_of_lt_of_le ha hle.frames)).trans (hle.origin a ha)
  binds a name hname := hle'.binds a name (hle.binds a name hname)

theorem Adds.refl (a : Address) (names : List String) (h : Heap) : h.Adds a names h :=
  ⟨.refl h, fun _ _ => .inl⟩

theorem Adds.trans (hadds : h.Adds a names h') (hadds' : h'.Adds a names h'') :
    h.Adds a names h'' := by
  refine ⟨hadds.toKeeps.trans hadds'.toKeeps, fun b name hname => ?_⟩
  rcases hadds'.added b name hname with hold | hhere | ⟨hnew, hdeclared⟩
  · rcases hadds.added b name hold with hold' | hhere | ⟨hnew, hdeclared⟩
    · exact .inl hold'
    · exact .inr (.inl hhere)
    · exact .inr (.inr ⟨hnew, (hadds'.origin b hold.size).symm ▸ hdeclared⟩)
  · exact .inr (.inl hhere)
  · exact .inr (.inr ⟨Nat.le_trans hadds.frames hnew, hdeclared⟩)

theorem Adds.confined (hadds : h.Adds globals names h') (hconfined : h.Confined) : h'.Confined := by
  intro a ha name hname
  rcases hadds.added a name hname with hold | ⟨hglobals, -⟩ | ⟨-, hdeclared⟩
  · exact (hadds.origin a hold.size).symm ▸ hconfined a ha name hold
  · exact absurd hglobals ha
  · exact hdeclared

/-- Where no names may be added, the frames that were there bind the same names. -/
theorem Adds.binds_iff (hadds : h.Adds a [] h') (hb : b < h.frames.size) :
    h'.Binds b name ↔ h.Binds b name := by
  refine ⟨fun hname => ?_, hadds.binds b name⟩
  rcases hadds.added b name hname with hold | ⟨-, hmem⟩ | ⟨hnew, -⟩
  · exact hold
  · cases hmem
  · exact absurd hb (Nat.not_lt.mpr hnew)

/-! ### Operations -/

/-- An operation that leaves the frames alone adds no names. -/
theorem adds_of_frames (hframes : h'.frames = h.frames) : h.Adds a names h' := by
  have hframe : h'.frame = h.frame := by
    funext b
    rw [frame, hframes, frame]
  refine ⟨⟨Nat.le_of_eq (congrArg Array.size hframes.symm), fun b _ => by rw [hframe], ?_⟩, ?_⟩
  · exact fun b name hname => by rwa [Binds, hframe]
  · exact fun b name hname => .inl (by rwa [Binds, ← hframe])

theorem define_of_le (hf : h.frames.size ≤ f) (name : String) (v : Value) :
    h.define f name v = h := by
  unfold define
  congr 1
  refine Array.ext Array.size_modify fun i _ hi => ?_
  rw [Array.getElem_modify, if_neg (Nat.ne_of_gt (Nat.lt_of_lt_of_le hi hf))]

theorem binds_define : (h.define f name v).Binds b other ↔
    h.Binds b other ∨ (b = f ∧ f < h.frames.size ∧ name = other) := by
  by_cases hf : f < h.frames.size
  · unfold Binds
    rw [frame_define h hf]
    split
    case isTrue hb => rw [Bindings.contains_insert, or_comm, and_iff_right hb, and_iff_right hf]
    case isFalse hb => simp [hb]
  · simp [define_of_le (Nat.le_of_not_lt hf), hf]

theorem keeps_define (h : Heap) (f : Address) (name : String) (v : Value) :
    h.Keeps (h.define f name v) := by
  refine ⟨Nat.le_of_eq (frames_size_define h name v).symm, fun b _ => ?_, fun b other hother =>
    binds_define.mpr (.inl hother)⟩
  by_cases hf : f < h.frames.size
  · rw [frame_define h hf]
    split <;> rfl
  · rw [define_of_le (Nat.le_of_not_lt hf)]

/-- Binding a name in the frame that may bind more adds it. -/
theorem adds_define_here (hname : name ∈ names) : h.Adds a names (h.define a name v) := by
  refine ⟨keeps_define h a name v, fun b other hother => ?_⟩
  rcases binds_define.mp hother with hold | ⟨hb, -, rfl⟩
  · exact .inl hold
  · exact .inr (.inl ⟨hb, hname⟩)

/-- Giving a name that a frame binds another value binds no name anywhere. -/
theorem binds_define_bound (hname : h.Binds f name) :
    (h.define f name v).Binds b other ↔ h.Binds b other := by
  refine binds_define.trans ⟨?_, .inl⟩
  rintro (hold | ⟨rfl, -, rfl⟩)
  · exact hold
  · exact hname

theorem adds_define_bound (hname : h.Binds f name) : h.Adds a names (h.define f name v) :=
  ⟨keeps_define h f name v, fun _ _ hother => .inl ((binds_define_bound hname).mp hother)⟩

theorem adds_addFrame {o : Frame}
    (hbindings : ∀ name, o.bindings.contains name = true → name ∈ o.origin.declares) :
    h.Adds a names (h.addFrame o) := by
  have hframe : ∀ b < h.frames.size, (h.addFrame o).frame b = h.frame b := fun b hb => by
    rw [frame_addFrame, if_neg (Nat.ne_of_lt hb)]
  refine ⟨⟨?_, fun b hb => by rw [hframe b hb], fun b other hother => ?_⟩, fun b other hother => ?_⟩
  · rw [frames_size_addFrame]
    exact Nat.le_succ _
  · rwa [Binds, hframe b hother.size]
  · by_cases hb : b = h.frames.size
    · rw [Binds, frame_addFrame, if_pos hb] at hother
      rw [frame_addFrame, if_pos hb]
      exact .inr (.inr ⟨Nat.le_of_eq hb.symm, hbindings other hother⟩)
    · rw [Binds, frame_addFrame, if_neg hb] at hother
      exact .inl hother

/-- What a new frame is used for adds nothing to the frames before it. -/
theorem Adds.opened {o : Frame}
    (hbindings : ∀ name, o.bindings.contains name = true → name ∈ o.origin.declares)
    (hadds : (h.addFrame o).Adds h.frames.size o.origin.declares h') : h.Adds a names h' := by
  have hnew : (h'.frame h.frames.size).origin = o.origin := by
    rw [hadds.origin _ (by simp), frame_addFrame, if_pos rfl]
  have hfirst : h.Adds a names (h.addFrame o) := adds_addFrame hbindings
  refine ⟨hfirst.toKeeps.trans hadds.toKeeps, fun b name hname => ?_⟩
  rcases hadds.added b name hname with hold | ⟨rfl, hdeclared⟩ | ⟨hlater, hdeclared⟩
  · rcases hfirst.added b name hold with hold' | hhere | ⟨hlater, hdeclared⟩
    · exact .inl hold'
    · exact .inr (.inl hhere)
    · exact .inr (.inr ⟨hlater, (hadds.origin b hold.size).symm ▸ hdeclared⟩)
  · exact .inr (.inr ⟨Nat.le_refl _, hnew.symm ▸ hdeclared⟩)
  · exact .inr (.inr ⟨Nat.le_trans hfirst.frames hlater, hdeclared⟩)

/-! ### Assignments -/

theorem binds_of_locate (hf : h.locate a name = .ok f) : h.Binds f name := by
  unfold locate at hf
  split at hf
  case h_1 hfind =>
    cases hf
    simpa [Binds] using List.find?_some hfind
  case h_2 => cases hf

theorem binds_of_locateAt {distance : Nat} (hf : h.locateAt a distance name = .ok f) :
    h.Binds f name := by
  unfold locateAt at hf
  split at hf
  · cases hf
  · split at hf
    case isTrue hbinds =>
      cases hf
      exact hbinds
    case isFalse => cases hf

/-- Both ways of writing a variable leave every frame with the names that it binds. -/
theorem binds_assign (hassign : h.assign a name v = .ok h') : h'.Binds b other ↔ h.Binds b other := by
  unfold assign at hassign
  cases hf : h.locate a name with
  | error cause =>
      rw [hf] at hassign
      cases hassign
  | ok f =>
      rw [hf] at hassign
      cases hassign
      exact binds_define_bound (binds_of_locate hf)

theorem binds_assignAt {distance : Nat} (hassign : h.assignAt a distance name v = .ok h') :
    h'.Binds b other ↔ h.Binds b other := by
  unfold assignAt at hassign
  cases hf : h.locateAt a distance name with
  | error cause =>
      rw [hf] at hassign
      cases hassign
  | ok f =>
      rw [hf] at hassign
      cases hassign
      exact binds_define_bound (binds_of_locateAt hf)

/-! ### Functions -/

theorem Spelled.of_functions (hspelled : h.Spelled) (hfunctions : h'.functions = h.functions) :
    h'.Spelled := by
  intro f
  rw [function, hfunctions]
  exact hspelled f

theorem Spelled.addFunction {o : FunctionObject} (hspelled : h.Spelled) (ho : o.decl.Spelled) :
    (h.addFunction o).Spelled := by
  intro f
  rw [function_addFunction]
  split
  · exact ho
  · exact hspelled f

end Heap

end LoxLang
