import LoxLang.Proofs.Eval.Upkeep
import LoxLang.Proofs.Store.Names

/-!
What runs add to the names of frames. Whatever is run in a frame adds to it only the names that are
declared where it stands: an expression none, a statement its own if it is a declaration, and a block, a
call or the body of a class none, since it declares in a frame of its own. An assignment adds none.

It is shown of two runs that are watched, of which the first stops no later than the second. Either
they come to the same, or the first has been stopped on the way of the second; so the names at the
moment of the stop are kept until the second ends. Nothing is asked of the host functions, the table of
distances and the ways in which runs end.
-/

namespace LoxLang

open Scope Grammar Eval

/-! ### Assignments -/

namespace Eval

variable (σ : Setting) (ref : Reference) (v : Value) (m : Machine)

/-- A reference is located in a frame that binds its name, or not at all. -/
theorem locate_cases : (∃ f, m.heap.Binds f ref.name.lexeme ∧ locate σ ref m = .ok f m) ∨
    ∃ fault, locate σ ref m = .error fault m := by
  have key : ∀ r : Except RuntimeCause Address, (∀ f, r = .ok f → m.heap.Binds f ref.name.lexeme) →
      (∃ f, m.heap.Binds f ref.name.lexeme ∧ onLine ref.name.line r m = .ok f m) ∨
        ∃ fault, onLine ref.name.line r m = .error fault m := by
    rintro (cause | f) hbinds
    · exact .inr ⟨_, rfl⟩
    · exact .inl ⟨f, hbinds f rfl, rfl⟩
  refine key _ fun f hf => ?_
  split at hf
  · exact Heap.binds_of_locateAt hf
  · exact Heap.binds_of_locate hf

/-- An assignment gives a new value to a name that is bound, or changes nothing. -/
theorem assignTo_cases :
    (∃ f, m.heap.Binds f ref.name.lexeme ∧
      assignTo σ ref v m = .ok () { m with heap := m.heap.define f ref.name.lexeme v }) ∨
    ∃ fault, assignTo σ ref v m = .error fault m := by
  rcases locate_cases σ ref m with ⟨f, hbinds, hlocate⟩ | ⟨fault, hlocate⟩
  · exact .inl ⟨f, hbinds, bind_of_ok hlocate⟩
  · exact .inr ⟨fault, bind_of_error hlocate⟩

theorem binds_assignTo {a : Address} {name : String} :
    (machineAfter (assignTo σ ref v) m).heap.Binds a name ↔ m.heap.Binds a name := by
  unfold machineAfter
  rcases assignTo_cases σ ref v m with ⟨f, hbinds, hrun⟩ | ⟨fault, hrun⟩
  · rw [hrun]
    exact Heap.binds_define_bound hbinds
  · rw [hrun]

end Eval

/-! ### Stopping -/

section

variable {α : Type} {node node' seen : Node} {p q m : Machine} {fault fault' : Fault}

/-- A watched run comes to two nodes, to the first no later than to the second: if it is to be stopped
at both, it is stopped at the first. -/
def ReachesInTurn (run : (Node → Eval Unit) → Eval α) (start : Machine) (node : Node) (p : Machine)
    (node' : Node) (q : Machine) : Prop :=
  Reaches run start node' q ∧ ∀ fault fault', ∃ n,
    run (fun seen => do stopAt node p fault seen; stopAt node' q fault' seen) start = .error fault n

/-- A watcher changes nothing, and a run that it does not stop is not stopped by a second one
either. -/
structure Stricter (see see' : Node → Eval Unit) : Prop where
  sees : ∀ node m, see node m = .ok () m ∨ ∃ fault, see node m = .error fault m
  sees' : ∀ node m, see' node m = .ok () m ∨ ∃ fault, see' node m = .error fault m
  passes : ∀ node m, see node m = .ok () m → see' node m = .ok () m

theorem stopAt_cases (node : Node) (p : Machine) (fault : Fault) (seen : Node) (m : Machine) :
    stopAt node p fault seen m = .ok () m ∨ ∃ fault', stopAt node p fault seen m = .error fault' m := by
  by_cases h : seen = node ∧ m = p
  · exact .inr ⟨fault, if_pos h⟩
  · exact .inl (stopAt_of_ne h)

theorem eq_of_stopAt (h : stopAt node p fault seen m = .error fault' m) :
    (seen = node ∧ m = p) ∧ fault' = fault := by
  by_cases hseen : seen = node ∧ m = p
  · obtain ⟨rfl, rfl⟩ := hseen
    rw [stopAt_self] at h
    cases h
    exact ⟨⟨rfl, rfl⟩, rfl⟩
  · rw [stopAt_of_ne hseen] at h
    cases h

theorem stricter_idle (node : Node) (p : Machine) (fault : Fault) :
    Stricter (stopAt node p fault) idle :=
  ⟨stopAt_cases node p fault, fun _ _ => .inl rfl, fun _ _ _ => rfl⟩

theorem stopAt_both (h : ¬(seen = node ∧ m = p)) :
    (do stopAt node p fault seen; stopAt node' q fault' seen) m = stopAt node' q fault' seen m :=
  bind_of_ok (stopAt_of_ne h)

theorem stricter_stopAt (node : Node) (p : Machine) (fault : Fault) (node' : Node) (q : Machine)
    (fault' : Fault) :
    Stricter (fun seen => do stopAt node p fault seen; stopAt node' q fault' seen)
      (stopAt node' q fault') := by
  have hself : ∀ seen m, seen = node ∧ m = p →
      (do stopAt node p fault seen; stopAt node' q fault' seen) m = .error fault m := by
    rintro _ _ ⟨rfl, rfl⟩
    exact bind_of_error stopAt_self
  refine ⟨fun seen m => ?_, stopAt_cases node' q fault', fun seen m hpasses => ?_⟩
  · by_cases h : seen = node ∧ m = p
    · exact .inr ⟨fault, hself seen m h⟩
    · rw [stopAt_both h]
      exact stopAt_cases node' q fault' seen m
  · by_cases h : seen = node ∧ m = p
    · rw [hself seen m h] at hpasses
      cases hpasses
    · rwa [stopAt_both h] at hpasses

end

/-! ### Declaring -/

variable {α β : Type}

/-- What a run in a frame leaves of a heap. -/
structure LeavesNames (h : Heap) (a : Address) (names : List String) (m : Machine) : Prop where
  adds : h.Adds a names m.heap
  spelled : m.heap.Spelled
  current : m.current = a

/-- A watched run is stopped at a node, on the way to a later heap. -/
inductive StopsWithin (see : Node → Eval Unit) (h : Heap) (a : Address) (names : List String)
    (h' : Heap) : EStateM.Result Fault Machine α → Prop
  | stops {node : Node} {p n : Machine} {fault : Fault} (hsee : see node p = .error fault p)
    (hheap : n.heap = p.heap) (hbefore : h.Adds a names p.heap) (hbehind : p.heap.Keeps h') :
    StopsWithin see h a names h' (.error fault n)

/-- Two runs in a frame add names from a list to it and none to others; the first comes to the same as
the second or is stopped within it. -/
def Declares (see : Node → Eval Unit) (h : Heap) (a : Address) (names : List String)
    (x x' : Eval α) : Prop :=
  ∀ m, m.heap = h → m.current = a → LeavesNames h a names (machineAfter x' m) ∧
    (x m = x' m ∨ StopsWithin see h a names (machineAfter x' m).heap (x m))

namespace Declares

variable {see see' : Node → Eval Unit} {σ : Setting} {h h' : Heap} {a b : Address}
  {names : List String} {x x' : Eval α} {line : Nat}

/-! ### Sequencing -/

theorem pure (hspelled : h.Spelled) (v : α) : Declares see h a names (pure v) (pure v) := by
  rintro m rfl hcurrent
  exact ⟨⟨.refl _ _ _, hspelled, hcurrent⟩, .inl rfl⟩

theorem throw (hspelled : h.Spelled) (fault : Fault) :
    Declares see h a names (throw fault : Eval α) (throw fault) := by
  rintro m rfl hcurrent
  exact ⟨⟨.refl _ _ _, hspelled, hcurrent⟩, .inl rfl⟩

theorem fail (hspelled : h.Spelled) (cause : RuntimeCause) :
    Declares see h a names (Eval.fail line cause : Eval α) (Eval.fail line cause) :=
  throw hspelled _

theorem onLine (hspelled : h.Spelled) (r : Except RuntimeCause α) :
    Declares see h a names (Eval.onLine line r) (Eval.onLine line r) := by
  cases r with
  | ok v => exact pure hspelled v
  | error cause => exact fail hspelled cause

theorem bind {f f' : α → Eval β} (hx : Declares see h a names x x')
    (hf : ∀ h', h'.Spelled → ∀ v, Declares see h' a names (f v) (f' v)) :
    Declares see h a names (x >>= f) (x' >>= f') := by
  intro m hheap hcurrent
  obtain ⟨hleaves, hsame⟩ := hx m hheap hcurrent
  change LeavesNames h a names (machineAfter (EStateM.bind x' f') m) ∧
    (EStateM.bind x f m = EStateM.bind x' f' m ∨
      StopsWithin see h a names (machineAfter (EStateM.bind x' f') m).heap (EStateM.bind x f m))
  unfold machineAfter EStateM.bind at *
  generalize x' m = r' at hleaves hsame
  cases r' with
  | error fault n =>
      refine ⟨hleaves, ?_⟩
      rcases hsame with hsame | hstops
      · exact .inl (by rw [hsame])
      · generalize x m = r at hstops
        obtain ⟨hsee, hheap, hbefore, hbehind⟩ := hstops
        exact .inr ⟨hsee, hheap, hbefore, hbehind⟩
  | ok v n =>
      obtain ⟨hadds, hspelled, hafter⟩ := hleaves
      obtain ⟨hleaves', hsame'⟩ := hf n.heap hspelled v n rfl hafter
      unfold machineAfter at hleaves' hsame'
      dsimp only at hsame ⊢
      refine ⟨⟨hadds.trans hleaves'.adds, hleaves'.spelled, hleaves'.current⟩, ?_⟩
      rcases hsame with hsame | hstops
      · rw [hsame]
        rcases hsame' with hsame' | hstops
        · exact .inl hsame'
        · dsimp only
          generalize f v n = r at hstops
          obtain ⟨hsee, hheap, hbefore, hbehind⟩ := hstops
          exact .inr ⟨hsee, hheap, hadds.trans hbefore, hbehind⟩
      · generalize x m = r at hstops
        obtain ⟨hsee, hheap, hbefore, hbehind⟩ := hstops
        exact .inr ⟨hsee, hheap, hbefore, hbehind.trans hleaves'.adds.toKeeps⟩

theorem map {g : α → β} (hx : Declares see h a names x x') :
    Declares see h a names (g <$> x) (g <$> x') := by
  rw [map_eq_pure_bind, map_eq_pure_bind]
  exact hx.bind fun h' hspelled v => pure hspelled (g v)

/-- A node is seen before it is run. -/
theorem seen {node : Node} (hstricter : Stricter see see') (hspelled : h.Spelled)
    (hx : Declares see h a names x x') :
    Declares see h a names (do see node; x) (do see' node; x') := by
  rintro m rfl rfl
  obtain ⟨hleaves, hsame⟩ := hx m rfl rfl
  have hhere : LeavesNames m.heap m.current names m := ⟨.refl _ _ _, hspelled, rfl⟩
  unfold machineAfter at *
  rcases hstricter.sees node m with hsee | ⟨fault, hsee⟩
  · have hsee' := hstricter.passes node m hsee
    rw [bind_of_ok hsee, bind_of_ok hsee']
    exact ⟨hleaves, hsame⟩
  · rw [bind_of_error hsee]
    rcases hstricter.sees' node m with hsee' | ⟨fault', hsee'⟩
    · rw [bind_of_ok hsee']
      exact ⟨hleaves, .inr ⟨hsee, rfl, hhere.adds, hleaves.adds.toKeeps⟩⟩
    · rw [bind_of_error hsee']
      exact ⟨hhere, .inr ⟨hsee, rfl, hhere.adds, .refl _⟩⟩

/-! ### Reading and changing the machine -/

theorem bind_get {f f' : Machine → Eval β}
    (hf : ∀ m, m.heap = h → m.current = a → Declares see h a names (f m) (f' m)) :
    Declares see h a names (get >>= f) (get >>= f') :=
  fun m hheap hcurrent => hf m hheap hcurrent m hheap hcurrent

theorem bind_consult {f f' : Sight → Eval β} (hf : ∀ n, Declares see h a names (f ⟨h, n⟩) (f' ⟨h, n⟩)) :
    Declares see h a names (Eval.consult >>= f) (Eval.consult >>= f') := by
  rintro m rfl hcurrent
  exact hf m.answered { m with answered := m.answered + 1 } rfl hcurrent

theorem bind_getHeap {f f' : Heap → Eval β} (hf : Declares see h a names (f h) (f' h)) :
    Declares see h a names (Eval.getHeap >>= f) (Eval.getHeap >>= f') := by
  rintro m rfl hcurrent
  exact hf m rfl hcurrent

theorem bind_getCurrent {f f' : Address → Eval β} (hf : Declares see h a names (f a) (f' a)) :
    Declares see h a names (Eval.getCurrent >>= f) (Eval.getCurrent >>= f') := by
  rintro m hheap rfl
  exact hf m hheap rfl

theorem changeHeap {change : Heap → Heap} (hadds : h.Adds a names (change h))
    (hspelled : (change h).Spelled) :
    Declares see h a names (Eval.changeHeap change) (Eval.changeHeap change) := by
  rintro m rfl hcurrent
  exact ⟨⟨hadds, hspelled, hcurrent⟩, .inl rfl⟩

theorem allocate {free : Heap → Address} {add : Heap → Heap} (hadds : h.Adds a names (add h))
    (hspelled : (add h).Spelled) :
    Declares see h a names (Eval.allocate free add) (Eval.allocate free add) := by
  rintro m rfl hcurrent
  exact ⟨⟨hadds, hspelled, hcurrent⟩, .inl rfl⟩

/-- An action in a new frame, which declares there what the frame is opened for. -/
theorem opened {f : Frame} (hspelled : h.Spelled)
    (hbindings : ∀ name, f.bindings.contains name = true → name ∈ f.origin.declares)
    (hx : ∀ h' b, h'.Spelled → Declares see h' b f.origin.declares x x') :
    Declares see h a names (do let b ← Eval.newFrame f; Eval.inFrame b x)
      (do let b ← Eval.newFrame f; Eval.inFrame b x') := by
  rintro m rfl rfl
  obtain ⟨hleaves, hsame⟩ := hx (m.heap.addFrame f) m.heap.frames.size
    (hspelled.of_functions rfl) { m with heap := m.heap.addFrame f, current := m.heap.frames.size } rfl rfl
  change LeavesNames m.heap m.current names (machineAfter (Eval.inFrame m.heap.frames.size x')
      { m with heap := m.heap.addFrame f }) ∧
    (Eval.inFrame m.heap.frames.size x { m with heap := m.heap.addFrame f } =
        Eval.inFrame m.heap.frames.size x' { m with heap := m.heap.addFrame f } ∨
      StopsWithin see m.heap m.current names (machineAfter (Eval.inFrame m.heap.frames.size x')
        { m with heap := m.heap.addFrame f }).heap
        (Eval.inFrame m.heap.frames.size x { m with heap := m.heap.addFrame f }))
  unfold machineAfter Eval.inFrame at *
  dsimp only
  generalize x' { m with heap := m.heap.addFrame f, current := m.heap.frames.size } = r' at hleaves hsame
  cases r' with
  | ok v n | error fault n =>
      refine ⟨⟨.opened hbindings hleaves.adds, hleaves.spelled, rfl⟩, ?_⟩
      rcases hsame with hsame | hstops
      · exact .inl (by rw [hsame])
      · generalize x { m with heap := m.heap.addFrame f, current := m.heap.frames.size } = r at hstops
        obtain ⟨hsee, hheap, hbefore, hbehind⟩ := hstops
        exact .inr ⟨hsee, hheap, .opened hbindings hbefore, hbehind⟩

theorem newFunction {f : FunctionObject} (hspelled : h.Spelled) (hf : f.decl.Spelled) :
    Declares see h a names (Eval.newFunction f) (Eval.newFunction f) :=
  allocate (Heap.adds_of_frames rfl) (hspelled.addFunction hf)

theorem newClass (hspelled : h.Spelled) (c : ClassObject) :
    Declares see h a names (Eval.newClass c) (Eval.newClass c) :=
  allocate (Heap.adds_of_frames rfl) (hspelled.of_functions rfl)

theorem newInstance (hspelled : h.Spelled) (i : Instance) :
    Declares see h a names (Eval.newInstance i) (Eval.newInstance i) :=
  allocate (Heap.adds_of_frames rfl) (hspelled.of_functions rfl)

theorem write (hspelled : h.Spelled) (s : String) :
    Declares see h a names (Eval.write s) (Eval.write s) := by
  unfold Eval.write
  split
  · exact pure hspelled ()
  · refine bind_get fun m _ _ => bind_get fun m' _ _ => ?_
    dsimp only
    split
    · exact throw hspelled _
    · rintro n rfl hcurrent
      exact ⟨⟨.refl _ _ _, hspelled, hcurrent⟩, .inl rfl⟩

theorem flush (hspelled : h.Spelled) : Declares see h a names Eval.flush Eval.flush := by
  refine bind_get fun m _ _ => ?_
  split
  · exact throw hspelled _
  · exact pure hspelled ()

theorem printValue (hspelled : h.Spelled) (v : Value) :
    Declares see h a names (Eval.printValue v) (Eval.printValue v) :=
  bind_getHeap ((write hspelled _).bind fun _ hspelled₁ _ => write hspelled₁ _)

/-! ### Variables -/

theorem locate (hspelled : h.Spelled) (ref : Reference) :
    Declares see h a names (Eval.locate σ ref) (Eval.locate σ ref) :=
  bind_get fun _ _ _ => onLine hspelled _

theorem lookUp (hspelled : h.Spelled) (ref : Reference) :
    Declares see h a names (Eval.lookUp σ ref) (Eval.lookUp σ ref) :=
  (locate hspelled ref).bind fun _ hspelled₁ _ => bind_getHeap (pure hspelled₁ _)

theorem assignTo (hspelled : h.Spelled) (ref : Reference) (v : Value) :
    Declares see h a names (Eval.assignTo σ ref v) (Eval.assignTo σ ref v) := by
  rintro m rfl rfl
  refine ⟨?_, .inl rfl⟩
  unfold machineAfter
  rcases assignTo_cases σ ref v m with ⟨f, hbinds, hrun⟩ | ⟨fault, hrun⟩
  · rw [hrun]
    exact ⟨Heap.adds_define_bound hbinds, hspelled.of_functions rfl, rfl⟩
  · rw [hrun]
    exact ⟨.refl _ _ _, hspelled, rfl⟩

theorem defineHere {name : String} (hspelled : h.Spelled) (hname : name ∈ names) (v : Value) :
    Declares see h a names (Eval.defineHere name v) (Eval.defineHere name v) :=
  bind_getCurrent (changeHeap (Heap.adds_define_here hname) (hspelled.of_functions rfl))

/-! ### Calls -/

/-- Evaluation of expressions adds nothing to the frame that it happens in. -/
def Evaluates (see : Node → Eval Unit) (eval eval' : Expr → Eval Value) : Prop :=
  ∀ h a names e, h.Spelled → e.Spelled → Declares see h a names (eval e) (eval' e)

/-- Execution of statements adds the names that they declare. -/
def Executes (see : Node → Eval Unit) (exec exec' : Stmt → Eval Flow) : Prop :=
  ∀ h a names s, h.Spelled → s.Spelled → (∀ name, s.declared? = some name → name ∈ names) →
    Declares see h a names (exec s) (exec' s)

def Runs (see : Node → Eval Unit) (run run' : List Stmt → Eval Flow) : Prop :=
  ∀ h a names ss, h.Spelled → SpelledStmts ss → declaredNames ss ⊆ names →
    Declares see h a names (run ss) (run' ss)

def Invokes (see : Node → Eval Unit) (invoke invoke' : Value → List Value → Nat → Eval Value) :
    Prop :=
  ∀ h a names callee arguments line, h.Spelled →
    Declares see h a names (invoke callee arguments line) (invoke' callee arguments line)

variable {run run' : List Stmt → Eval Flow} {arguments : List Value}

theorem callBody (hrun : Runs see run run') (hspelled : h.Spelled) (f : Address) :
    Declares see h a names (Eval.callBody run f arguments) (Eval.callBody run' f arguments) := by
  refine bind_getHeap (opened hspelled ?_ fun h₁ b hspelled₁ => ?_)
  · exact fun name hname => List.mem_append_left _ (mem_of_contains_argumentBindings hname)
  · exact hrun h₁ b _ _ hspelled₁ (hspelled f).body (List.subset_append_right ..)

theorem callFunction (hrun : Runs see run run') (hspelled : h.Spelled) (f : Address) :
    Declares see h a names (Eval.callFunction run f arguments line)
      (Eval.callFunction run' f arguments line) := by
  rw [Eval.callFunction_eq, Eval.callFunction_eq]
  refine bind_getHeap ((callBody hrun hspelled f).bind ?_)
  intro h₁ hspelled₁ flow
  split
  · exact bind_getHeap (onLine hspelled₁ _)
  · cases flow with
    | returned v => exact pure hspelled₁ v
    | normal => exact pure hspelled₁ Value.nil

theorem bindMethod (hspelled : h.Spelled) (method : Address) (receiver : Value) :
    Declares see h a names (Eval.bindMethod method receiver) (Eval.bindMethod method receiver) := by
  refine bind_getHeap ((allocate (Heap.adds_addFrame ?_) (hspelled.of_functions rfl)).bind ?_)
  · exact fun name hname => List.mem_singleton.mpr (Bindings.eq_of_contains_single hname)
  · exact fun h₁ hspelled₁ frame => newFunction hspelled₁ (hspelled method)

theorem instantiate (hrun : Runs see run run') (hspelled : h.Spelled) (c : Address) :
    Declares see h a names (Eval.instantiate run c arguments line)
      (Eval.instantiate run' c arguments line) := by
  refine (newInstance hspelled _).bind fun h₁ hspelled₁ i => bind_getHeap ?_
  split
  · refine (bindMethod hspelled₁ _ _).bind fun h₂ hspelled₂ f => ?_
    exact (callFunction hrun hspelled₂ f).bind fun h₃ hspelled₃ _ => pure hspelled₃ _
  · exact pure hspelled₁ _

theorem invoke (hrun : Runs see run run') :
    Invokes see (Eval.invoke σ run) (Eval.invoke σ run') := by
  intro h a names callee arguments line hspelled
  refine bind_getHeap ?_
  split
  · exact fail hspelled _
  · split
    · cases callee with
      | native i =>
          simp only [Eval.enter]
          split
          · refine bind_consult fun n => ?_
            split
            · exact pure hspelled _
            · exact fail hspelled _
          · exact fail hspelled _
      | function f => exact callFunction hrun hspelled f
      | classRef c => exact instantiate hrun hspelled c
      | _ => exact fail hspelled _
    · exact fail hspelled _

/-! ### Expressions -/

variable {eval eval' : Expr → Eval Value} {call call' : Value → List Value → Nat → Eval Value}

theorem evaluateAll (heval : Evaluates see eval eval') {es : List Expr} (hspelled : h.Spelled)
    (hes : SpelledExprs es) :
    Declares see h a names (Eval.evaluateAll eval es) (Eval.evaluateAll eval' es) := by
  induction es generalizing h with
  | nil => exact pure hspelled _
  | cons e es ih =>
      refine (heval h a names e hspelled hes.1).bind fun h₁ hspelled₁ v => ?_
      exact (ih hspelled₁ hes.2).bind fun h₂ hspelled₂ vs => pure hspelled₂ _

theorem closure {d : FunctionDecl} (hspelled : h.Spelled) (hd : d.Spelled) :
    Declares see h a names (Eval.closure d) (Eval.closure d) :=
  bind_getCurrent ((newFunction hspelled hd).bind fun _ hspelled₁ _ => pure hspelled₁ _)

theorem boundMethod (hspelled : h.Spelled) (method : Address) (receiver : Value) :
    Declares see h a names (do return Value.function (← Eval.bindMethod method receiver))
      (do return Value.function (← Eval.bindMethod method receiver)) :=
  (bindMethod hspelled method receiver).bind fun _ hspelled₁ _ => pure hspelled₁ _

theorem property (hspelled : h.Spelled) (i : Address) (name : Token) :
    Declares see h a names (Eval.property i name) (Eval.property i name) := by
  refine bind_getHeap ?_
  dsimp only
  split
  · exact pure hspelled _
  · split
    · exact boundMethod hspelled _ _
    · exact fail hspelled _

theorem superMethod (hspelled : h.Spelled) (ref : Reference) (method : Token) :
    Declares see h a names (Eval.superMethod σ ref method) (Eval.superMethod σ ref method) := by
  unfold Eval.superMethod
  dsimp only
  split
  · exact fail hspelled _
  · exact fail hspelled _
  · refine bind_get fun m _ _ => (onLine hspelled _).bind fun h₁ hspelled₁ v => ?_
    refine (onLine hspelled₁ _).bind fun h₂ hspelled₂ w => ?_
    split
    · split
      · exact boundMethod hspelled₂ _ _
      · exact fail hspelled₂ _
    · exact fail hspelled₂ _

theorem expression (heval : Evaluates see eval eval') (hcall : Invokes see call call') :
    Evaluates see (Eval.expression σ eval call) (Eval.expression σ eval' call') := by
  intro h a names e hspelled he
  cases e with
  | literal value => exact pure hspelled _
  | group inner => exact heval h a names inner hspelled he
  | unary operator right =>
      exact (heval h a names right hspelled he).bind fun _ hspelled₁ _ => onLine hspelled₁ _
  | binary left operator right =>
      refine (heval h a names left hspelled he.1).bind fun h₁ hspelled₁ v => ?_
      exact (heval h₁ a names right hspelled₁ he.2).bind fun _ hspelled₂ _ => onLine hspelled₂ _
  | logical left operator right =>
      refine (heval h a names left hspelled he.1).bind fun h₁ hspelled₁ v => ?_
      split
      · exact pure hspelled₁ v
      · exact heval h₁ a names right hspelled₁ he.2
  | ident ref | this ref => exact lookUp hspelled ref
  | assign ref value =>
      refine (heval h a names value hspelled he.2).bind fun h₁ hspelled₁ v => ?_
      exact (assignTo hspelled₁ ref v).bind fun _ hspelled₂ _ => pure hspelled₂ v
  | call callee paren arguments =>
      refine (heval h a names callee hspelled he.1).bind fun h₁ hspelled₁ f => ?_
      refine (evaluateAll heval hspelled₁ he.2).bind fun h₂ hspelled₂ vs => ?_
      exact hcall h₂ a names f vs paren.line hspelled₂
  | function decl => exact closure hspelled he
  | get object name =>
      refine (heval h a names object hspelled he).bind fun h₁ hspelled₁ v => ?_
      cases v with
      | object i => exact property hspelled₁ i name
      | _ => exact fail hspelled₁ _
  | set object name value =>
      refine (heval h a names object hspelled he.1).bind fun h₁ hspelled₁ v => ?_
      cases v with
      | object i =>
          refine (heval h₁ a names value hspelled₁ he.2).bind fun h₂ hspelled₂ w => ?_
          refine (changeHeap (Heap.adds_of_frames rfl) (hspelled₂.of_functions rfl)).bind ?_
          exact fun _ hspelled₃ _ => pure hspelled₃ w
      | _ => exact fail hspelled₁ _
  | super ref method => exact superMethod hspelled ref method

/-! ### Statements -/

variable {exec exec' : Stmt → Eval Flow}

theorem executeAll (hexec : Executes see exec exec') :
    Runs see (Eval.executeAll exec) (Eval.executeAll exec') := by
  intro h a names ss hspelled hss hnames
  induction ss generalizing h with
  | nil => exact pure hspelled _
  | cons s ss ih =>
      obtain ⟨hs, hss⟩ := hss
      obtain ⟨hfirst, hrest⟩ := declaredNames_cons_subset hnames
      refine (hexec h a names s hspelled hs hfirst).bind fun h₁ hspelled₁ flow => ?_
      cases flow with
      | returned v => exact pure hspelled₁ _
      | normal => exact ih h₁ hspelled₁ hss hrest

theorem repeatWhile {test test' : Eval Bool} {body body' : Eval Flow}
    (htest : ∀ h, h.Spelled → Declares see h a names test test')
    (hbody : ∀ h, h.Spelled → Declares see h a names body body') (n : Nat) (hspelled : h.Spelled) :
    Declares see h a names (Eval.repeatWhile test body n) (Eval.repeatWhile test' body' n) := by
  induction n generalizing h with
  | zero => exact throw hspelled .outOfFuel
  | succ n ih =>
      refine (htest h hspelled).bind fun h₁ hspelled₁ goesOn => ?_
      split
      · refine (hbody h₁ hspelled₁).bind fun h₂ hspelled₂ flow => ?_
        cases flow with
        | returned v => exact pure hspelled₂ _
        | normal => exact ih hspelled₂
      · exact pure hspelled₁ _

theorem superclassOf (hspelled : h.Spelled) (superclass : Option Reference) :
    Declares see h a names (Eval.superclassOf σ superclass) (Eval.superclassOf σ superclass) := by
  cases superclass with
  | none => exact pure hspelled _
  | some ref =>
      refine (lookUp hspelled ref).bind fun h₁ hspelled₁ v => ?_
      cases v with
      | classRef c => exact pure hspelled₁ _
      | _ => exact fail hspelled₁ _

theorem methodTable {ds : List FunctionDecl} {table : Bindings Address} (hspelled : h.Spelled)
    (hds : SpelledMethods ds) :
    Declares see h a names (Eval.methodTable table ds) (Eval.methodTable table ds) := by
  induction ds generalizing h table with
  | nil => exact pure hspelled table
  | cons d ds ih =>
      refine bind_getCurrent ((newFunction hspelled hds.1).bind fun h₁ hspelled₁ f => ?_)
      exact ih hspelled₁ hds.2

theorem inMethodFrame {up : Option Address} (hspelled : h.Spelled)
    (hx : ∀ h b names, h.Spelled → Declares see h b names x x') :
    Declares see h a names (Eval.inMethodFrame up x) (Eval.inMethodFrame up x') := by
  cases up with
  | none => exact hx h a names hspelled
  | some c =>
      refine bind_getCurrent (opened hspelled ?_ fun h₁ b hspelled₁ => hx h₁ b _ hspelled₁)
      exact fun name hname => List.mem_singleton.mpr (Bindings.eq_of_contains_single hname)

/-- The last step of a class statement gives a value to a name that is bound already. -/
theorem redefine {name : String} {v : Value} (hspelled : h.Spelled) :
    Declares see h a names
      (do let f ← Eval.onLine line (h.locate a name)
          Eval.changeHeap (Heap.define f name v))
      (do let f ← Eval.onLine line (h.locate a name)
          Eval.changeHeap (Heap.define f name v)) := by
  cases hf : h.locate a name with
  | error cause => exact fail hspelled cause
  | ok f =>
      exact changeHeap (Heap.adds_define_bound (Heap.binds_of_locate hf)) (hspelled.of_functions rfl)

theorem defineClass {name : Token} {superclass : Option Reference} {methods : List FunctionDecl}
    (hspelled : h.Spelled) (hname : name.lexeme ∈ names) (hmethods : SpelledMethods methods) :
    Declares see h a names (Eval.defineClass σ name superclass methods)
      (Eval.defineClass σ name superclass methods) := by
  refine (superclassOf hspelled superclass).bind fun h₁ hspelled₁ up => ?_
  refine (defineHere hspelled₁ hname .nil).bind fun h₂ hspelled₂ _ => ?_
  refine (inMethodFrame hspelled₂ fun h b names hspelled => methodTable hspelled hmethods).bind ?_
  intro h₃ hspelled₃ table
  refine (newClass hspelled₃ _).bind fun h₄ hspelled₄ c => ?_
  exact bind_getHeap (bind_getCurrent (redefine hspelled₄))

theorem optionalValue (heval : Evaluates see eval eval') {e : Option Expr} (hspelled : h.Spelled)
    (he : ∀ e', e = some e' → e'.Spelled) :
    Declares see h a names (Eval.optionalValue eval e) (Eval.optionalValue eval' e) := by
  cases e with
  | none => exact pure hspelled Value.nil
  | some e => exact heval h a names e hspelled (he e rfl)

theorem statement (heval : Evaluates see eval eval') (hexec : Executes see exec exec') (fuel : Nat) :
    Executes see (Eval.statement σ fuel eval exec) (Eval.statement σ fuel eval' exec') := by
  intro h a names s hspelled hs hnames
  have hnormal : ∀ h, h.Spelled →
      Declares see h a names (return Flow.normal) (return Flow.normal) := fun h hspelled =>
    pure hspelled Flow.normal
  cases s with
  | expr value =>
      exact (heval h a names value hspelled hs).bind fun h₁ hspelled₁ _ => hnormal h₁ hspelled₁
  | print value =>
      refine (heval h a names value hspelled hs).bind fun h₁ hspelled₁ v => ?_
      exact (printValue hspelled₁ v).bind fun h₂ hspelled₂ _ => hnormal h₂ hspelled₂
  | var name initializer =>
      have hvalue : ∀ e, initializer = some e → e.Spelled := by
        rintro e rfl
        exact hs.2
      refine (optionalValue heval hspelled hvalue).bind fun h₁ hspelled₁ v => ?_
      refine (defineHere hspelled₁ (hnames _ rfl) v).bind fun h₂ hspelled₂ _ => ?_
      exact hnormal h₂ hspelled₂
  | block body =>
      refine bind_getCurrent (opened hspelled nofun fun h₁ b hspelled₁ => ?_)
      exact executeAll hexec h₁ b _ body hspelled₁ hs (List.Subset.refl _)
  | branch condition thenBranch elseBranch =>
      -- A branch declares nothing, so it may be executed under any list of names.
      have hbranch : ∀ s : Stmt, s.Spelled ∧ s.declared? = none → ∀ h, h.Spelled →
          Declares see h a names (exec s) (exec' s) := by
        rintro s ⟨hs, hnone⟩ h hspelled
        refine hexec h a names s hspelled hs fun name hname => ?_
        rw [hnone] at hname
        cases hname
      cases elseBranch with
      | none =>
          refine (heval h a names condition hspelled hs.1).bind fun h₁ hspelled₁ v => ?_
          split
          · exact hbranch thenBranch hs.2 h₁ hspelled₁
          · exact hnormal h₁ hspelled₁
      | some elseBranch =>
          refine (heval h a names condition hspelled hs.1).bind fun h₁ hspelled₁ v => ?_
          split
          · exact hbranch thenBranch hs.2.1 h₁ hspelled₁
          · exact hbranch elseBranch hs.2.2 h₁ hspelled₁
  | loop condition body =>
      refine repeatWhile ?_ ?_ fuel hspelled
      · exact fun h₁ hspelled₁ => (heval h₁ a names condition hspelled₁ hs.1).map
      · intro h₁ hspelled₁
        refine hexec h₁ a names body hspelled₁ hs.2.1 fun name hname => ?_
        rw [hs.2.2] at hname
        cases hname
  | function decl =>
      refine (closure hspelled hs.2.2).bind fun h₁ hspelled₁ v => ?_
      refine (defineHere hspelled₁ (hnames _ rfl) v).bind fun h₂ hspelled₂ _ => ?_
      exact hnormal h₂ hspelled₂
  | ret keyword value =>
      have hvalue : ∀ e, value = some e → e.Spelled := by
        rintro e rfl
        exact hs
      exact (optionalValue heval hspelled hvalue).bind fun h₁ hspelled₁ v => pure hspelled₁ _
  | classDecl name superclass methods =>
      refine (defineClass hspelled (hnames _ rfl) hs.2).bind fun h₁ hspelled₁ _ => ?_
      exact hnormal h₁ hspelled₁

/-! ### Programs -/

theorem evaluates_executes (hstricter : Stricter see see') (n : Nat) :
    Evaluates see (Eval.evaluateWatched see σ n) (Eval.evaluateWatched see' σ n) ∧
      Executes see (Eval.executeWatched see σ n) (Eval.executeWatched see' σ n) := by
  induction n with
  | zero =>
      constructor
      · exact fun h a names e hspelled _ => throw hspelled .outOfFuel
      · exact fun h a names s hspelled _ _ => throw hspelled .outOfFuel
  | succ n ih =>
      obtain ⟨heval, hexec⟩ := ih
      constructor
      · intro h a names e hspelled he
        refine seen hstricter hspelled ?_
        exact expression heval (invoke (executeAll hexec)) h a names e hspelled he
      · intro h a names s hspelled hs hnames
        exact seen hstricter hspelled (statement heval hexec n h a names s hspelled hs hnames)

theorem interpret (hstricter : Stricter see see') (n : Nat) {ss : List Stmt} (hspelled : h.Spelled)
    (hss : SpelledStmts ss) (hnames : declaredNames ss ⊆ names) :
    Declares see h a names (Eval.interpretWatched see σ n ss) (Eval.interpretWatched see' σ n ss) := by
  induction ss generalizing h with
  | nil => exact flush hspelled
  | cons s ss ih =>
      obtain ⟨hs, hss⟩ := hss
      obtain ⟨hfirst, hrest⟩ := declaredNames_cons_subset hnames
      refine ((evaluates_executes hstricter n).2 h a names s hspelled hs hfirst).bind ?_
      exact fun h₁ hspelled₁ _ => ih hspelled₁ hss hrest

/-! ### Moments -/

variable {run : (Node → Eval Unit) → Eval α} {m p q : Machine} {node node' : Node}

/-- A run comes to a node only in a machine that adds the same names as the run as a whole, and to two
nodes one after the other only in machines of which the second keeps the names of the first. -/
theorem reaches (hrun : ∀ see see', Stricter see see' →
      Declares see m.heap m.current names (run see) (run see'))
    (hreach : Reaches run m node p) :
    m.heap.Adds m.current names p.heap ∧ p.heap.Keeps (machineAfter (run idle) m).heap ∧
      ∃ fault n, run (stopAt node p fault) m = .error fault n ∧ n.heap = p.heap := by
  obtain ⟨fault, hstops⟩ :=
    hreach.stopped fun fault => (hrun _ idle (stricter_idle node p fault) m rfl rfl).2
  generalize hresult : run (stopAt node p fault) m = r at hstops
  obtain @⟨seen, p', n, fault', hsee, hheap, hbefore, hbehind⟩ := hstops
  obtain ⟨⟨rfl, rfl⟩, rfl⟩ := eq_of_stopAt hsee
  exact ⟨hbefore, hbehind, _, n, hresult, hheap⟩

theorem reaches_in_turn (hrun : ∀ see see', Stricter see see' →
      Declares see m.heap m.current names (run see) (run see'))
    (hturn : ReachesInTurn run m node p node' q) : p.heap.Keeps q.heap := by
  obtain ⟨hreach, hboth⟩ := hturn
  obtain ⟨-, -, fault', n', hn', hheap'⟩ := reaches hrun hreach
  obtain ⟨fault, hfault⟩ : ∃ fault, fault ≠ fault' := by
    by_cases h : fault' = .outOfFuel
    · exact ⟨.output "", h ▸ nofun⟩
    · exact ⟨.outOfFuel, fun heq => h heq.symm⟩
  obtain ⟨n, hn⟩ := hboth fault fault'
  rcases (hrun _ (stopAt node' q fault') (stricter_stopAt ..) m rfl rfl).2 with hsame | hstops
  · rw [hn, hn'] at hsame
    cases hsame
    exact absurd rfl hfault
  · rw [hn] at hstops
    obtain @⟨seen, p', _, _, hsee, _, _, hbehind⟩ := hstops
    unfold machineAfter at hbehind
    rw [hn'] at hbehind
    by_cases hfirst : seen = node ∧ p' = p
    · rw [← hfirst.2, ← hheap']
      exact hbehind
    · rw [stopAt_both hfirst] at hsee
      exact absurd (eq_of_stopAt hsee).2 hfault

end Declares

end LoxLang
