import LoxLang.Proofs.Store.Names

/-!
Two ways to a variable. A search by name goes outwards from a frame until one binds the name; a counted
walk follows a known number of links and looks there only. Where the count is that of the nearest frame
that binds the name, the two read and write the same slot. Writing changes this one slot, and with it what
is read from exactly those frames that see it; a failing look-up changes nothing.
-/

namespace LoxLang

/-- A run writes a variable by one of the two ways, and leaves the machine as it is where that fails. -/
theorem Eval.assignTo_eq (σ : Setting) (ref : Reference) (v : Value) (m : Machine) :
    assignTo σ ref v m =
      match (match σ.distances.lookup ref.id with
        | some d => m.heap.assignAt m.current d ref.name.lexeme v
        | none => m.heap.assign Heap.globals ref.name.lexeme v) with
      | .ok h => .ok () { m with heap := h }
      | .error cause => .error (.runtime ⟨ref.name.line, cause⟩) m := by
  have hlocate : locate σ ref m = onLine ref.name.line (match σ.distances.lookup ref.id with
      | some d => m.heap.locateAt m.current d ref.name.lexeme
      | none => m.heap.locate Heap.globals ref.name.lexeme) m := rfl
  change EStateM.bind (locate σ ref) _ m = _
  rw [EStateM.bind, hlocate]
  cases σ.distances.lookup ref.id with
  | none =>
      dsimp only [Heap.assign]
      cases m.heap.locate Heap.globals ref.name.lexeme <;> rfl
  | some d =>
      dsimp only [Heap.assignAt]
      cases m.heap.locateAt m.current d ref.name.lexeme <;> rfl

namespace Heap

/-- A number of links lead from one frame out to another. -/
inductive Ancestor (h : Heap) : Nat → Address → Address → Prop
  | here (a : Address) : Ancestor h 0 a a
  | outer {k : Nat} {a b f : Address} (hlink : (h.frame a).enclosing = some b)
    (hrest : Ancestor h k b f) : Ancestor h (k + 1) a f

/-- The nearest frame outwards that binds a name, and its distance. -/
structure Nearest (h : Heap) (a : Address) (name : String) (k : Nat) (f : Address) : Prop where
  ancestor : h.Ancestor k a f
  binds : h.Binds f name
  least : ∀ j < k, ∀ g, h.Ancestor j a g → ¬h.Binds g name

/-- A heap in which one slot of a frame has a new value. All other slots and all other objects are as
they were, and so is what is read by name, but for this name from frames that have the slot nearest. -/
structure Overwrites (h h' : Heap) (f : Address) (name : String) (v : Value) : Prop where
  written : (h'.frame f).bindings.find? name = some v
  kept : ∀ g other, ¬(g = f ∧ other = name) →
    (h'.frame g).bindings.find? other = (h.frame g).bindings.find? other
  enclosing : ∀ g, (h'.frame g).enclosing = (h.frame g).enclosing
  frames : h'.frames.size = h.frames.size
  rest : h'.functions = h.functions ∧ h'.classes = h.classes ∧ h'.instances = h.instances
  read : ∀ b, (∃ j, h.Nearest b name j f) → h'.get b name = .ok v
  unread : ∀ b other, ¬(other = name ∧ ∃ j, h.Nearest b name j f) → h'.get b other = h.get b other

variable {h h' : Heap} {a b f g : Address} {name other : String} {k : Nat} {v : Value}

/-! ### Chains -/

theorem ancestor_iff (hlinked : h.Linked) : h.Ancestor k a f ↔ (h.chain a)[k]? = some f := by
  induction k generalizing a with
  | zero =>
      rw [chain_eq hlinked, List.getElem?_cons_zero, Option.some_inj]
      constructor
      · intro hancestor
        cases hancestor
        rfl
      · rintro rfl
        exact .here a
  | succ k ih =>
      rw [chain_eq hlinked, List.getElem?_cons_succ]
      constructor
      · intro hancestor
        cases hancestor with
        | outer hlink hrest =>
            rw [hlink]
            exact ih.mp hrest
      · intro hfound
        cases hlink : (h.frame a).enclosing with
        | none => simp [hlink] at hfound
        | some b =>
            rw [hlink] at hfound
            exact .outer hlink (ih.mpr hfound)

/-- Chains depend on the links only. -/
theorem chain_congr (henclosing : ∀ g, (h'.frame g).enclosing = (h.frame g).enclosing) (a : Address) :
    h'.chain a = h.chain a := by
  have key : ∀ n a, h'.chainUpTo n a = h.chainUpTo n a := by
    intro n
    induction n with
    | zero => exact fun _ => rfl
    | succ n ih => exact fun a => by simp only [chainUpTo, henclosing, ih]
  exact key _ a

/-! ### Finding a slot -/

theorem locate_eq_ok_iff (hlinked : h.Linked) :
    h.locate a name = .ok f ↔ ∃ k, h.Nearest a name k f := by
  have hfind : h.locate a name = .ok f ↔
      (h.chain a).find? (fun g => (h.frame g).bindings.contains name) = some f := by
    unfold locate
    cases (h.chain a).find? fun g => (h.frame g).bindings.contains name <;> simp
  rw [hfind, List.find?_eq_some_iff_getElem]
  constructor
  · rintro ⟨hbinds, k, hk, hfound, hbefore⟩
    refine ⟨k, (ancestor_iff hlinked).mpr ?_, hbinds, ?_⟩
    · rw [List.getElem?_eq_getElem hk, hfound]
    · intro j hj g hg hother
      obtain ⟨hlt, hfound'⟩ := List.getElem?_eq_some_iff.mp ((ancestor_iff hlinked).mp hg)
      have hnone := hbefore j hj
      rw [hfound'] at hnone
      simp [show (h.frame g).bindings.contains name = true from hother] at hnone
  · rintro ⟨k, hancestor, hbinds, hleast⟩
    obtain ⟨hk, hfound⟩ := List.getElem?_eq_some_iff.mp ((ancestor_iff hlinked).mp hancestor)
    refine ⟨hbinds, k, hk, hfound, fun j hj => ?_⟩
    have hlt := Nat.lt_trans hj hk
    have hnone := hleast j hj _ ((ancestor_iff hlinked).mpr (List.getElem?_eq_getElem hlt))
    simpa [Binds] using hnone

theorem locate_of_unbound (hlinked : h.Linked)
    (hunbound : ∀ k f, h.Ancestor k a f → ¬h.Binds f name) :
    h.locate a name = .error (.undefinedVariable name) := by
  cases hlocate : h.locate a name with
  | ok f =>
      obtain ⟨k, hnearest⟩ := (locate_eq_ok_iff hlinked).mp hlocate
      exact absurd hnearest.binds (hunbound k f hnearest.ancestor)
  | error cause =>
      unfold locate at hlocate
      split at hlocate
      · cases hlocate
      · exact hlocate.symm

theorem locateAt_of_binds (hlinked : h.Linked) (hancestor : h.Ancestor k a f)
    (hbinds : h.Binds f name) : h.locateAt a k name = .ok f := by
  have hcontains : (h.frame f).bindings.contains name = true := hbinds
  rw [locateAt, (ancestor_iff hlinked).mp hancestor]
  simp [hcontains]

theorem locateAt_of_not_binds (hlinked : h.Linked) (hancestor : h.Ancestor k a f)
    (hbinds : ¬h.Binds f name) : h.locateAt a k name = .error (.missingAtDistance name k) := by
  have hcontains : ¬(h.frame f).bindings.contains name = true := hbinds
  rw [locateAt, (ancestor_iff hlinked).mp hancestor]
  simp [hcontains]

theorem locateAt_of_short (hlinked : h.Linked) (hshort : ∀ f, ¬h.Ancestor k a f) (name : String) :
    h.locateAt a k name = .error (.chainTooShort k) := by
  have hnone : (h.chain a)[k]? = none :=
    Option.eq_none_iff_forall_ne_some.mpr fun f hf => hshort f ((ancestor_iff hlinked).mpr hf)
  rw [locateAt, hnone]

/-! ### Reading and writing a slot -/

theorem find?_valueIn (hbinds : h.Binds f name) :
    (h.frame f).bindings.find? name = some (h.valueIn name f) := by
  obtain ⟨v, hv⟩ := (Bindings.contains_iff ..).mp hbinds
  rw [valueIn, hv, Option.getD_some]

theorem find?_define (hf : f < h.frames.size) (name : String) (v : Value) (g : Address)
    (other : String) : ((h.define f name v).frame g).bindings.find? other =
      if g = f ∧ other = name then some v else (h.frame g).bindings.find? other := by
  rw [h.frame_define hf]
  by_cases hg : g = f
  · by_cases hother : name = other
    · simp [hg, hother, Bindings.find?_insert]
    · simp [hg, hother, Ne.symm hother, Bindings.find?_insert]
  · simp [hg]

/-- Writing to a slot that is there overwrites it. -/
theorem overwrites_define (hlinked : h.Linked) (hbinds : h.Binds f name) (v : Value) :
    h.Overwrites (h.define f name v) f name v := by
  have hfind := h.find?_define hbinds.size name v
  have henclosing : ∀ g, ((h.define f name v).frame g).enclosing = (h.frame g).enclosing := by
    intro g
    rw [h.frame_define hbinds.size]
    split <;> rfl
  -- A search ends where it ended before, since no frame has other names or another link.
  have hlocate : ∀ b other, (h.define f name v).locate b other = h.locate b other := by
    intro b other
    have hcontains : ∀ g, ((h.define f name v).frame g).bindings.contains other =
        (h.frame g).bindings.contains other :=
      fun g => Bool.eq_iff_iff.mpr (binds_define_bound hbinds)
    simp only [locate, chain_congr henclosing, hcontains]
  refine ⟨?_, ?_, henclosing, h.frames_size_define name v, ⟨rfl, rfl, rfl⟩, ?_, ?_⟩
  · rw [hfind, if_pos ⟨rfl, rfl⟩]
  · intro g other hother
    rw [hfind, if_neg hother]
  · intro b hnearest
    have hfound := (locate_eq_ok_iff hlinked).mpr hnearest
    simp [get, hlocate, hfound, Except.map, valueIn, hfind]
  · intro b other hother
    cases hfound : h.locate b other with
    | error cause => simp [get, hlocate, hfound, Except.map]
    | ok g =>
        have hslot : ¬(g = f ∧ other = name) := by
          rintro ⟨rfl, rfl⟩
          exact hother ⟨rfl, (locate_eq_ok_iff hlinked).mp hfound⟩
        simp [get, hlocate, hfound, Except.map, valueIn, hfind, hslot]

theorem nearest_exists (hlinked : h.Linked) (hancestor : h.Ancestor k a f) (hbinds : h.Binds f name) :
    ∃ j g, h.Nearest a name j g := by
  cases hlocate : h.locate a name with
  | ok g =>
      obtain ⟨j, hnearest⟩ := (locate_eq_ok_iff hlinked).mp hlocate
      exact ⟨j, g, hnearest⟩
  | error cause =>
      unfold locate at hlocate
      split at hlocate
      case h_1 => cases hlocate
      case h_2 hnone =>
        have hmem := List.mem_of_getElem? ((ancestor_iff hlinked).mp hancestor)
        exact absurd hbinds (List.find?_eq_none.mp hnone f hmem)

/-! ### The two ways -/

/-- What the two ways read and write, from a frame on. -/
structure LookupsAgree (h : Heap) (a : Address) (name : String) : Prop where
  /-- The search reads the nearest slot of the name, and so does the walk to its frame. -/
  get_nearest : ∀ k f, h.Nearest a name k f → h.get a name = h.getAt a k name ∧
    ∃ v, (h.frame f).bindings.find? name = some v ∧ h.get a name = .ok v
  assign_nearest : ∀ k f, h.Nearest a name k f → ∀ v, h.assign a name v = h.assignAt a k name v ∧
    ∃ h', h.assign a name v = .ok h' ∧ h.Overwrites h' f name v
  nearest : ∀ k f, h.Ancestor k a f → h.Binds f name → ∃ j g, h.Nearest a name j g
  get_unbound : (∀ k f, h.Ancestor k a f → ¬h.Binds f name) →
    h.get a name = .error (.undefinedVariable name)
  assign_unbound : (∀ k f, h.Ancestor k a f → ¬h.Binds f name) →
    ∀ v, h.assign a name v = .error (.undefinedVariable name)
  /-- A walk reads the slot that it leads to, be there nearer or farther slots of the name or not. -/
  getAt_bound : ∀ k f, h.Ancestor k a f → h.Binds f name →
    ∃ v, (h.frame f).bindings.find? name = some v ∧ h.getAt a k name = .ok v
  assignAt_bound : ∀ k f, h.Ancestor k a f → h.Binds f name →
    ∀ v, ∃ h', h.assignAt a k name v = .ok h' ∧ h.Overwrites h' f name v
  getAt_missing : ∀ k f, h.Ancestor k a f → ¬h.Binds f name →
    h.getAt a k name = .error (.missingAtDistance name k)
  assignAt_missing : ∀ k f, h.Ancestor k a f → ¬h.Binds f name →
    ∀ v, h.assignAt a k name v = .error (.missingAtDistance name k)
  getAt_short : ∀ k, (∀ f, ¬h.Ancestor k a f) → h.getAt a k name = .error (.chainTooShort k)
  assignAt_short : ∀ k, (∀ f, ¬h.Ancestor k a f) →
    ∀ v, h.assignAt a k name v = .error (.chainTooShort k)
  /-- A run writes by one of the two ways, and leaves the machine as it is where that fails. -/
  assignTo : ∀ σ ref v m, Eval.assignTo σ ref v m =
    match (match σ.distances.lookup ref.id with
      | some d => m.heap.assignAt m.current d ref.name.lexeme v
      | none => m.heap.assign Heap.globals ref.name.lexeme v) with
    | .ok h => .ok () { m with heap := h }
    | .error cause => .error (.runtime ⟨ref.name.line, cause⟩) m

/-- A frame is opened inside of one that is there, so that in a tree of frames links lead to older ones.
Where a frame outwards binds a name, the search by name and the walk to the nearest such frame read
the same slot and write to it, and where none does, the search fails. A counted walk reads and writes the
slot of the frame that it leads to, and fails just where the links are too few or this frame does not bind
the name. Whatever slot is written, all others are left alone, and what fails leaves the machine as it
is. -/
theorem lookups_agree (hlinked : h.Linked) (a : Address) (name : String) : h.LookupsAgree a name := by
  have hsearch : ∀ k f, h.Nearest a name k f → h.locate a name = .ok f :=
    fun k f hnearest => (locate_eq_ok_iff hlinked).mpr ⟨k, hnearest⟩
  have hwalk : ∀ k f, h.Ancestor k a f → h.Binds f name → h.locateAt a k name = .ok f :=
    fun k f hancestor hbinds => locateAt_of_binds hlinked hancestor hbinds
  constructor
  case get_nearest =>
    intro k f hnearest
    have hfound := hsearch k f hnearest
    refine ⟨?_, _, find?_valueIn hnearest.binds, by rw [get, hfound, Except.map]⟩
    rw [get, getAt, hfound, hwalk k f hnearest.ancestor hnearest.binds]
  case assign_nearest =>
    intro k f hnearest v
    have hfound := hsearch k f hnearest
    refine ⟨?_, _, by rw [assign, hfound, Except.map], overwrites_define hlinked hnearest.binds v⟩
    rw [assign, assignAt, hfound, hwalk k f hnearest.ancestor hnearest.binds]
  case nearest => exact fun k f => nearest_exists hlinked
  case get_unbound =>
    intro hunbound
    rw [get, locate_of_unbound hlinked hunbound, Except.map]
  case assign_unbound =>
    intro hunbound v
    rw [assign, locate_of_unbound hlinked hunbound, Except.map]
  case getAt_bound =>
    intro k f hancestor hbinds
    exact ⟨_, find?_valueIn hbinds, by rw [getAt, hwalk k f hancestor hbinds, Except.map]⟩
  case assignAt_bound =>
    intro k f hancestor hbinds v
    refine ⟨_, ?_, overwrites_define hlinked hbinds v⟩
    rw [assignAt, hwalk k f hancestor hbinds, Except.map]
  case getAt_missing =>
    intro k f hancestor hbinds
    rw [getAt, locateAt_of_not_binds hlinked hancestor hbinds, Except.map]
  case assignAt_missing =>
    intro k f hancestor hbinds v
    rw [assignAt, locateAt_of_not_binds hlinked hancestor hbinds, Except.map]
  case getAt_short =>
    intro k hshort
    rw [getAt, locateAt_of_short hlinked hshort name, Except.map]
  case assignAt_short =>
    intro k hshort v
    rw [assignAt, locateAt_of_short hlinked hshort name, Except.map]
  case assignTo => exact Eval.assignTo_eq

/-- A name of the globals that a frame between hides from one of two frames: what is written through the
one is not read through the other. -/
theorem lookups_agree_shadowed :
    let h : Heap := ⟨#[⟨[("a", .bool true)], none, .globals⟩, ⟨[("a", .nil)], some 0, .block []⟩,
      ⟨[], some 1, .block []⟩, ⟨[], some 0, .block []⟩], #[], #[], #[]⟩
    h.Linked ∧ h.Nearest 2 "a" 1 1 ∧ ∃ h', h.assign 2 "a" (.bool false) = .ok h' ∧
      h.Overwrites h' 1 "a" (.bool false) ∧ h'.get 2 "a" = .ok (.bool false) ∧
        h'.get 3 "a" = .ok (.bool true) := by
  intro h
  have hlinked : h.Linked := by
    intro a b hlink
    match a with
    | 0 => cases hlink
    | 1 | 2 | 3 =>
        cases hlink
        decide
    | n + 4 => cases hlink
  have hnearest : h.Nearest 2 "a" 1 1 := by
    refine ⟨.outer rfl (.here 1), rfl, fun j hj g hg => ?_⟩
    obtain rfl : j = 0 := by omega
    cases hg
    exact nofun
  obtain ⟨-, h', hassign, hoverwrites⟩ :=
    (lookups_agree hlinked 2 "a").assign_nearest 1 1 hnearest (.bool false)
  refine ⟨hlinked, hnearest, h', hassign, hoverwrites, hoverwrites.read 2 ⟨1, hnearest⟩, ?_⟩
  cases hassign
  rfl

end Heap

end LoxLang
