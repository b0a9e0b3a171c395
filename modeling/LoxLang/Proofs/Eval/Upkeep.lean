import LoxLang.Proofs.Eval.Upholds

/-!
Every construct of the language upholds a law that its tree obeys, if its parts do; and so do programs,
by induction on the fuel. The table of distances may be any at all: a distance that leads astray gives a
value that the program could hold anyway, or a fault.
-/

namespace LoxLang

open Scope

/-- A host function makes no values that programs could not hold. -/
def Native.Conserves (native : Native) : Prop :=
  ∀ (s : Sight) (arguments : List Value) (v : Value), native.run s arguments = .ok v →
    v ∈ arguments ∨ s.Holds v

theorem Native.Faithful.conserves {native : Native} (h : native.Faithful) : native.Conserves :=
  h.held

theorem Native.conserves_of_clock (start : Float) (later : Nat → Float) :
    ∀ native ∈ [clock start later], native.Conserves :=
  List.forall_mem_singleton.mpr (faithful_clock start later).conserves

namespace Eval

/-- The body of a call, before the result of the call is told. -/
def callBody (run : List Stmt → Eval Flow) (f : Address) (arguments : List Value) : Eval Flow := do
  let f := (← getHeap).function f
  let frame ← newFrame ⟨argumentBindings f.decl.params arguments, some f.closure, .call f.decl⟩
  inFrame frame (run f.decl.body)

theorem callFunction_eq (run : List Stmt → Eval Flow) (f : Address) (arguments : List Value)
    (line : Nat) : callFunction run f arguments line = (do
      let f' := (← getHeap).function f
      let flow ← callBody run f arguments
      if f'.isInitializer then onLine line ((← getHeap).getAt f'.closure 0 receiverName)
      else
        match flow with
        | .returned v => return v
        | .normal => return .nil) :=
  rfl

/-- The body of a function that is called runs in the frame of the call. -/
theorem callBody_eq (run : List Stmt → Eval Flow) (f : Address) (arguments : List Value)
    (p : Machine) : callBody run f arguments p =
      inFrame p.heap.frames.size (run (p.heap.function f).decl.body) { p with
        heap := p.heap.opened f (argumentBindings (p.heap.function f).decl.params arguments) } :=
  rfl

/-- What a class statement does once it has its superclass. -/
def makeClass (name : Token) (up : Option Address) (methods : List FunctionDecl) : Eval Unit := do
  defineHere name.lexeme .nil
  let table ← inMethodFrame up (methodTable [] methods)
  let c ← newClass ⟨name.lexeme, up, table⟩
  let f ← onLine name.line ((← getHeap).locate (← getCurrent) name.lexeme)
  changeHeap (Heap.define f name.lexeme (.classRef c))

theorem defineClass_eq (σ : Setting) (name : Token) (superclass : Option Reference)
    (methods : List FunctionDecl) : defineClass σ name superclass methods = (do
      let up ← superclassOf σ superclass
      makeClass name up methods) :=
  rfl

end Eval

/-- Where code runs: a frame of a sound heap, inside of a kind of class. -/
structure Heap.Stands (law : Law) (h : Heap) (a : Address) (k : ClassKind) : Prop where
  sound : h.Sound law
  code : h.RunsCode a
  around : h.Around a k

theorem Heap.Stands.mono {law : Law} {h h' : Heap} {a : Address} {k : ClassKind}
    (hstands : h.Stands law a k) (hle : h.Grows law h') (hsound : h'.Sound law) :
    h'.Stands law a k :=
  ⟨hsound, hstands.code.mono hle, hstands.around.mono hle⟩

/-- Code stands in a frame that is opened for it right inside of a frame. -/
theorem Heap.Stands.opened {law : Law} {h : Heap} {b : Address} {k : ClassKind} {f : Frame}
    (hsound : (h.addFrame f).Sound law) (hb : h.Around b k) (hlink : f.enclosing = some b)
    (hreceiver : f.origin.isReceiver = false) (hsuperclass : f.origin.isSuperclass = false) :
    (h.addFrame f).Stands law h.frames.size k := by
  have hcode := runsCode_new (h := h) f hreceiver hsuperclass
  refine ⟨hsound, hcode, .code (b := b) hcode ?_ (hb.mono (h.grows_addFrame law f))⟩
  rw [addFrame_new, hlink]

namespace Upholds

variable {law : Law} {see : Node → Eval Unit} {σ : Setting} {h h' : Heap} {a b : Address}
  {k : ClassKind} {run run' : List Stmt → Eval Flow} {arguments : List Value} {line : Nat}

def FlowHas (law : Law) (h : Heap) : Flow → Prop
  | .normal => True
  | .returned v => h.Has law v

def Evaluates (law : Law) (σ : Setting) (see : Node → Eval Unit)
    (eval eval' : Expr → Eval Value) : Prop :=
  ∀ h a k e, h.Stands law a k → e.Obeys law k →
    Upholds law σ see h a (eval e) (eval' e) fun h' v => h'.Has law v

def Executes (law : Law) (σ : Setting) (see : Node → Eval Unit)
    (exec exec' : Stmt → Eval Flow) : Prop :=
  ∀ h a k s, h.Stands law a k → s.Obeys law k →
    Upholds law σ see h a (exec s) (exec' s) (FlowHas law)

def Runs (law : Law) (σ : Setting) (see : Node → Eval Unit) (run run' : List Stmt → Eval Flow) : Prop :=
  ∀ h a k ss, h.Stands law a k → ObeysStmts law k ss →
    Upholds law σ see h a (run ss) (run' ss) (FlowHas law)

def Invokes (law : Law) (σ : Setting) (see : Node → Eval Unit)
    (invoke invoke' : Value → List Value → Nat → Eval Value) : Prop :=
  ∀ h a callee arguments line, h.Sound law → h.Has law callee → (∀ v ∈ arguments, h.Has law v) →
    Upholds law σ see h a (invoke callee arguments line) (invoke' callee arguments line)
      fun h' v => h'.Has law v

/-! ### Variables -/

theorem locate (hsound : h.Sound law) (ref : Reference) :
    Upholds law σ see h a (Eval.locate σ ref) (Eval.locate σ ref) fun h' f =>
      h' = h ∧ (h.frame f).bindings.contains ref.name.lexeme = true := by
  refine bind_get fun m hheap hcurrent => ?_
  refine onLine hsound fun f hf => ⟨rfl, ?_⟩
  rw [hheap] at hf
  split at hf
  · unfold Heap.locateAt at hf
    split at hf
    · cases hf
    · split at hf
      case isTrue hcontains =>
        cases hf
        exact hcontains
      case isFalse => cases hf
  · unfold Heap.locate at hf
    split at hf
    case h_1 hfind =>
      cases hf
      simpa using List.find?_some hfind
    case h_2 => cases hf

theorem lookUp (hsound : h.Sound law) (ref : Reference) :
    Upholds law σ see h a (Eval.lookUp σ ref) (Eval.lookUp σ ref) fun h' v =>
      h' = h ∧ h'.Has law v := by
  refine (locate hsound ref).bind ?_
  rintro h' - hsound' f ⟨rfl, -⟩
  exact bind_getHeap (pure hsound' ⟨rfl, hsound'.has_valueIn _ _⟩)

theorem define {name : String} {v : Value} {f : Address} (hsound : h.Sound law)
    (hf : f < h.frames.size) (hname : law.Writes name) (hv : h.Has law v) :
    Upholds law σ see h a (Eval.changeHeap (Heap.define f name v))
      (Eval.changeHeap (Heap.define f name v)) fun _ _ => True :=
  (changeHeap (Heap.grows_define hf hname v) (hsound.define hf hname hv)).mono
    fun _ _ _ _ _ => trivial

theorem assignTo {ref : Reference} {v : Value} (hsound : h.Sound law)
    (hname : law.Writes ref.name.lexeme) (hv : h.Has law v) :
    Upholds law σ see h a (Eval.assignTo σ ref v) (Eval.assignTo σ ref v) fun _ _ => True := by
  refine (locate hsound ref).bind ?_
  rintro h' - hsound' f ⟨rfl, hcontains⟩
  exact define hsound' (Heap.size_of_contains hcontains) hname hv

theorem defineHere {name : String} {v : Value} (hsound : h.Sound law) (ha : a < h.frames.size)
    (hname : law.Writes name) (hv : h.Has law v) :
    Upholds law σ see h a (Eval.defineHere name v) (Eval.defineHere name v) fun _ _ => True :=
  bind_getCurrent (define hsound ha hname hv)

/-! ### Calls -/

/-- The body of a function runs in a new frame, inside of the one that the function closes over. -/
theorem callBody (hrun : Runs law σ see run run') (hsound : h.Sound law) {f : Address}
    (hf : h.Callable law f) (harguments : ∀ v ∈ arguments, h.Has law v) :
    Upholds law σ see h a (Eval.callBody run f arguments) (Eval.callBody run' f arguments)
      (FlowHas law) := by
  refine bind_getHeap ?_
  obtain ⟨k, haround, hobeys⟩ := hf.obeys
  refine (newFrame hsound (hf.placed _) fun _ v hv =>
    harguments v (mem_of_find?_argumentBindings hv)).bind ?_
  rintro h₁ - hsound₁ frame ⟨rfl, rfl⟩
  have hstands := Heap.Stands.opened hsound₁ haround rfl rfl rfl
  exact (hrun _ _ k _ hstands hobeys.body).inFrame

theorem callFunction (hrun : Runs law σ see run run') (hsound : h.Sound law) {f : Address}
    (hf : h.Callable law f) (harguments : ∀ v ∈ arguments, h.Has law v) :
    Upholds law σ see h a (Eval.callFunction run f arguments line)
      (Eval.callFunction run' f arguments line) fun h' v => h'.Has law v := by
  rw [Eval.callFunction_eq, Eval.callFunction_eq]
  refine bind_getHeap ((callBody hrun hsound hf harguments).bind ?_)
  intro h₁ _ hsound₁ flow hflow
  split
  · exact bind_getHeap (onLine hsound₁ fun v hv => hsound₁.has_of_getAt hv)
  · cases flow with
    | returned v => exact pure hsound₁ hflow
    | normal => exact pure hsound₁ trivial

/-- Binding a method makes a copy of it in the frame of the receiver. -/
theorem bindMethod (hsound : h.Sound law) {c m i : Address} (hm : h.Declares c m)
    (hi : i < h.instances.size) :
    Upholds law σ see h a (Eval.bindMethod m (.object i)) (Eval.bindMethod m (.object i))
      fun h' f => h'.Callable law f ∧ h'.Bound f c m i := by
  refine bind_getHeap ?_
  obtain ⟨name, hmethod⟩ := hm.method hsound
  refine (newFrame hsound (hmethod.closure.placed_receiver _) ?_).bind ?_
  · intro other v hv
    obtain ⟨-, rfl⟩ := Bindings.eq_of_find?_single hv
    exact hi
  rintro h₁ - hsound₁ frame ⟨rfl, rfl⟩
  have hbound := hm.bound hsound hi
  have hcopy : (h.withBound m i).FunctionSound law h.functions.size := by
    refine ⟨Heap.size_of_receiver hbound.receiver, ?_, fun _ _ => ⟨c, m, i, hbound⟩⟩
    rw [hbound.decl, hbound.flag]
    exact (hmethod.mono (h.grows_withBound law m i)).obeys.lawful
  refine (newFunction hsound₁ hcopy).mono ?_
  rintro h₂ - hsound₂ _ ⟨rfl, rfl⟩
  exact ⟨hbound.callable hsound₂, hbound⟩

/-- A call of a class gives an instance of the class that was not there. -/
theorem instantiate (hrun : Runs law σ see run run') (hsound : h.Sound law) {c : Address}
    (hc : c < h.classes.size) (harguments : ∀ v ∈ arguments, h.Has law v) :
    Upholds law σ see h a (Eval.instantiate run c arguments line)
      (Eval.instantiate run' c arguments line) fun h' v => v = .object h.instances.size ∧
        h.instances.size < h'.instances.size ∧
          (h'.instanceObject h.instances.size).classAddress = c := by
  refine (newInstance hsound hc).bind ?_
  rintro h₁ hle₁ hsound₁ i ⟨hh₁, rfl⟩
  have hi : h.instances.size < h₁.instances.size := by
    rw [hh₁, Heap.instances_size_addInstance]
    exact Nat.lt_succ_self _
  have hclass : (h₁.instanceObject h.instances.size).classAddress = c := by
    rw [hh₁, Heap.instanceObject_addInstance, if_pos rfl]
  refine bind_getHeap ?_
  cases hfound : h₁.findMethod? c FunctionDecl.initializerName with
  | none => exact pure hsound₁ ⟨rfl, hi, hclass⟩
  | some m =>
      have hc₁ := Nat.lt_of_lt_of_le hc hle₁.classes
      obtain ⟨⟨d, -, hd⟩, -⟩ := hsound₁.declares_of_findMethod? hc₁ hfound
      refine (bindMethod hsound₁ hd hi).bind ?_
      rintro h₂ hle₂ hsound₂ f ⟨hf, -⟩
      refine (callFunction hrun hsound₂ hf fun v hv =>
        ((harguments v hv).mono hle₁).mono hle₂).bind ?_
      intro h₃ hle₃ hsound₃ v _
      have hle := hle₂.trans hle₃
      exact pure hsound₃ ⟨rfl, Nat.lt_of_lt_of_le hi hle.instances,
        (hle.classAddress _ hi).trans hclass⟩

theorem invoke (hrun : Runs law σ see run run')
    (hnatives : ∀ native ∈ σ.natives, native.Conserves) :
    Invokes law σ see (Eval.invoke σ run) (Eval.invoke σ run') := by
  intro h a callee arguments line hsound hcallee harguments
  refine bind_getHeap ?_
  cases h.arity? σ.natives callee with
  | none => exact fail hsound _
  | some n =>
      by_cases hlength : arguments.length = n
      case neg =>
        simp only [if_neg hlength]
        exact fail hsound _
      simp only [if_pos hlength]
      cases callee with
      | native i =>
          simp only [Eval.enter]
          cases hnative : σ.natives[i]? with
          | none => exact fail hsound _
          | some native =>
              have hconserves := hnatives native (List.mem_of_getElem? hnative)
              refine bind_consult fun n => ?_
              cases hresult : native.run ⟨h, n⟩ arguments with
              | error message => exact fail hsound _
              | ok v =>
                  refine pure hsound ?_
                  rcases hconserves ⟨h, n⟩ arguments v hresult with hmem | hholds
                  · exact harguments v hmem
                  · exact hsound.has_of_holds hholds
      | function f => exact callFunction hrun hsound hcallee harguments
      | classRef c =>
          refine (instantiate hrun hsound hcallee harguments).mono ?_
          rintro h' - - _ ⟨rfl, hi, -⟩
          exact hi
      | _ => exact fail hsound _

/-! ### Expressions -/

variable {eval eval' : Expr → Eval Value} {call call' : Value → List Value → Nat → Eval Value}

theorem evaluateAll (heval : Evaluates law σ see eval eval') {es : List Expr}
    (hstands : h.Stands law a k) (hobeys : ObeysExprs law k es) :
    Upholds law σ see h a (Eval.evaluateAll eval es) (Eval.evaluateAll eval' es)
      fun h' vs => ∀ v ∈ vs, h'.Has law v := by
  induction es generalizing h with
  | nil => exact pure hstands.sound nofun
  | cons e es ih =>
      obtain ⟨he, hes⟩ := hobeys
      refine (heval h a k e hstands he).bind ?_
      intro h₁ hle₁ hsound₁ v hv
      refine (ih (hstands.mono hle₁ hsound₁) hes).bind ?_
      intro h₂ hle₂ hsound₂ vs hvs
      refine pure hsound₂ fun w hw => ?_
      rcases List.mem_cons.mp hw with rfl | hw
      · exact hv.mono hle₂
      · exact hvs w hw

/-- A function that is made where its declaration stands. -/
theorem closure {d : FunctionDecl} (hstands : h.Stands law a k) (hobeys : d.Obeys law k false) :
    Upholds law σ see h a (Eval.closure d) (Eval.closure d) fun h' v => h'.Has law v := by
  have hle := h.grows_addFunction law ⟨d, a, false⟩
  have hnew := h.addFunction_new ⟨d, a, false⟩
  have hfunction := Heap.functionSound_new hstands.code.size hstands.code.receiver hobeys.lawful
  refine bind_getCurrent ((newFunction hstands.sound hfunction).bind ?_)
  rintro h₁ - hsound₁ f ⟨rfl, rfl⟩
  refine pure hsound₁ ⟨?_, ?_, k, ?_⟩
  · rw [Heap.functions_size_addFunction]
    exact Nat.lt_succ_self _
  · rw [hnew]
    exact nofun
  · rw [hnew]
    exact ⟨hstands.around.mono hle, hobeys⟩

/-- A method that is found in a lineage is bound to an object. -/
theorem boundMethod (hsound : h.Sound law) {c m i : Address} {name : String}
    (hc : c < h.classes.size) (hfound : h.findMethod? c name = some m) (hi : i < h.instances.size) :
    Upholds law σ see h a (do return .function (← Eval.bindMethod m (.object i)))
      (do return .function (← Eval.bindMethod m (.object i))) fun h' v => h'.Has law v := by
  obtain ⟨⟨d, -, hd⟩, -⟩ := hsound.declares_of_findMethod? hc hfound
  refine (bindMethod hsound hd hi).bind ?_
  rintro h₁ - hsound₁ f ⟨hf, -⟩
  exact pure hsound₁ hf

theorem property (hsound : h.Sound law) {i : Address} (hi : i < h.instances.size) (name : Token) :
    Upholds law σ see h a (Eval.property i name) (Eval.property i name)
      fun h' v => h'.Has law v := by
  refine bind_getHeap ?_
  dsimp only
  cases hfield : (h.instanceObject i).fields.find? name.lexeme with
  | some v => exact pure hsound (hsound.fields i _ v hfield)
  | none =>
      dsimp only
      cases hfound : h.findMethod? (h.instanceObject i).classAddress name.lexeme with
      | none => exact fail hsound _
      | some m => exact boundMethod hsound (hsound.classOf i hi) hfound hi

theorem superMethod (hsound : h.Sound law) (ref : Reference) (method : Token) :
    Upholds law σ see h a (Eval.superMethod σ ref method) (Eval.superMethod σ ref method)
      fun h' v => h'.Has law v := by
  unfold Eval.superMethod
  dsimp only
  split
  · exact fail hsound _
  · exact fail hsound _
  · refine bind_get fun m hheap hcurrent => ?_
    rw [hheap]
    refine (onLine (Q := fun h' v => h' = h ∧ h.Has law v) hsound
      fun v hv => ⟨rfl, hsound.has_of_getAt hv⟩).bind ?_
    rintro h₁ - hsound₁ v ⟨rfl, hv⟩
    refine (onLine (Q := fun h' v => h' = h₁ ∧ h₁.Has law v) hsound₁
      fun v hv => ⟨rfl, hsound₁.has_of_getAt hv⟩).bind ?_
    rintro h₂ - hsound₂ w ⟨rfl, hw⟩
    split
    · split
      case h_1 m' hfound => exact boundMethod hsound₂ hv hfound hw
      case h_2 => exact fail hsound₂ _
    · exact fail hsound₂ _

theorem has_unaryOperation {operator : Token} {v w : Value}
    (hw : unaryOperation operator v = .ok w) : h.Has law w := by
  unfold unaryOperation at hw
  split at hw <;> cases hw <;> trivial

theorem has_binaryOperation {operator : Token} {v v' w : Value}
    (hw : binaryOperation operator v v' = .ok w) : h.Has law w := by
  unfold binaryOperation at hw
  split at hw
  · unfold addition at hw
    split at hw <;> cases hw <;> trivial
  · cases hw
    trivial
  · cases hw
    trivial
  · split at hw
    · unfold numberOperation at hw
      split at hw <;> cases hw <;> trivial
    · cases hw

theorem has_ofLiteral (value : Literal) : h.Has law (Eval.ofLiteral value) := by
  cases value <;> trivial

theorem expression (heval : Evaluates law σ see eval eval') (hcall : Invokes law σ see call call') :
    Evaluates law σ see (Eval.expression σ eval call) (Eval.expression σ eval' call') := by
  intro h a k e hstands hobeys
  have hsound := hstands.sound
  have hnode : law.node (.expr e) k := Node.Obeys.lawful hobeys
  cases e with
  | literal value => exact pure hsound (has_ofLiteral value)
  | group inner => exact heval h a k inner hstands hobeys.2
  | unary operator right =>
      refine (heval h a k right hstands hobeys.2).bind ?_
      intro h₁ _ hsound₁ v _
      exact onLine hsound₁ fun w hw => has_unaryOperation hw
  | binary left operator right =>
      obtain ⟨-, hleft, hright⟩ := hobeys
      refine (heval h a k left hstands hleft).bind ?_
      intro h₁ hle₁ hsound₁ v _
      refine (heval h₁ a k right (hstands.mono hle₁ hsound₁) hright).bind ?_
      intro h₂ _ hsound₂ w _
      exact onLine hsound₂ fun x hx => has_binaryOperation hx
  | logical left operator right =>
      obtain ⟨-, hleft, hright⟩ := hobeys
      refine (heval h a k left hstands hleft).bind ?_
      intro h₁ hle₁ hsound₁ v hv
      split
      · exact pure hsound₁ hv
      · exact heval h₁ a k right (hstands.mono hle₁ hsound₁) hright
  | ident ref | this ref =>
      refine (lookUp hsound ref).mono ?_
      rintro h₁ - - v ⟨-, hv⟩
      exact hv
  | assign ref value =>
      refine (heval h a k value hstands hobeys.2).bind ?_
      intro h₁ _ hsound₁ v hv
      refine (assignTo hsound₁ ⟨_, k, hnode, rfl⟩ hv).bind ?_
      intro h₂ hle₂ hsound₂ _ _
      exact pure hsound₂ (hv.mono hle₂)
  | call callee paren arguments =>
      obtain ⟨-, hcallee, harguments⟩ := hobeys
      refine (heval h a k callee hstands hcallee).bind ?_
      intro h₁ hle₁ hsound₁ f hf
      refine (evaluateAll heval (hstands.mono hle₁ hsound₁) harguments).bind ?_
      intro h₂ hle₂ hsound₂ vs hvs
      exact hcall h₂ a f vs paren.line hsound₂ (hf.mono hle₂) hvs
  | function decl => exact closure hstands hobeys.2
  | get object name =>
      refine (heval h a k object hstands hobeys.2).bind ?_
      intro h₁ _ hsound₁ v hv
      cases v with
      | object i => exact property hsound₁ hv name
      | _ => exact fail hsound₁ _
  | set object name value =>
      obtain ⟨-, hobject, hvalue⟩ := hobeys
      refine (heval h a k object hstands hobject).bind ?_
      intro h₁ hle₁ hsound₁ v hv
      cases v with
      | object i =>
          refine (heval h₁ a k value (hstands.mono hle₁ hsound₁) hvalue).bind ?_
          intro h₂ hle₂ hsound₂ w hw
          have hi : i < h₂.instances.size := Nat.lt_of_lt_of_le hv hle₂.instances
          refine (changeHeap (Heap.grows_setField hi name.lexeme w) (hsound₂.setField hi hw)).bind ?_
          intro h₃ hle₃ hsound₃ _ _
          exact pure hsound₃ (hw.mono hle₃)
      | _ => exact fail hsound₁ _
  | super ref method => exact superMethod hsound ref method

/-! ### Statements -/

variable {exec exec' : Stmt → Eval Flow}

theorem normal (hsound : h.Sound law) :
    Upholds law σ see h a (return Flow.normal) (return Flow.normal) (FlowHas law) :=
  pure hsound trivial

theorem executeAll (hexec : Executes law σ see exec exec') :
    Runs law σ see (Eval.executeAll exec) (Eval.executeAll exec') := by
  intro h a k ss hstands hobeys
  induction ss generalizing h with
  | nil => exact normal hstands.sound
  | cons s ss ih =>
      obtain ⟨hs, hss⟩ := hobeys
      refine (hexec h a k s hstands hs).bind ?_
      intro h₁ hle₁ hsound₁ flow hflow
      cases flow with
      | returned v => exact pure hsound₁ hflow
      | normal => exact ih h₁ (hstands.mono hle₁ hsound₁) hss

theorem repeatWhile {test test' : Eval Bool} {body body' : Eval Flow}
    (htest : ∀ h, h.Stands law a k → Upholds law σ see h a test test' fun _ _ => True)
    (hbody : ∀ h, h.Stands law a k → Upholds law σ see h a body body' (FlowHas law)) (n : Nat)
    (hstands : h.Stands law a k) :
    Upholds law σ see h a (Eval.repeatWhile test body n) (Eval.repeatWhile test' body' n)
      (FlowHas law) := by
  induction n generalizing h with
  | zero => exact throw hstands.sound .outOfFuel
  | succ n ih =>
      refine (htest h hstands).bind ?_
      intro h₁ hle₁ hsound₁ goesOn _
      have hstands₁ := hstands.mono hle₁ hsound₁
      split
      · refine (hbody h₁ hstands₁).bind ?_
        intro h₂ hle₂ hsound₂ flow hflow
        cases flow with
        | returned v => exact pure hsound₂ hflow
        | normal => exact ih (hstands₁.mono hle₂ hsound₂)
      · exact normal hsound₁

theorem printValue (hsound : h.Sound law) (v : Value) :
    Upholds law σ see h a (Eval.printValue v) (Eval.printValue v) fun _ _ => True := by
  refine bind_getHeap ((write hsound _).bind ?_)
  rintro h₁ - hsound₁ _ -
  exact (write hsound₁ _).mono fun _ _ _ _ _ => trivial

/-- The statements of a block run in a new frame. -/
theorem block (hrun : Runs law σ see run run') {body : List Stmt} (hstands : h.Stands law a k)
    (hobeys : ObeysStmts law k body) :
    Upholds law σ see h a
      (do let here ← Eval.getCurrent
          let frame ← Eval.newFrame ⟨[], some here, .block body⟩
          Eval.inFrame frame (run body))
      (do let here ← Eval.getCurrent
          let frame ← Eval.newFrame ⟨[], some here, .block body⟩
          Eval.inFrame frame (run' body))
      (FlowHas law) := by
  refine bind_getCurrent ((newFrame hstands.sound (hstands.code.placed_block body) nofun).bind ?_)
  rintro h₁ - hsound₁ frame ⟨rfl, rfl⟩
  exact (hrun _ _ k body (.opened hsound₁ hstands.around rfl rfl rfl) hobeys).inFrame

theorem superclassOf (hsound : h.Sound law) (superclass : Option Reference) :
    Upholds law σ see h a (Eval.superclassOf σ superclass) (Eval.superclassOf σ superclass)
      fun h' up => h' = h ∧ up.isSome = superclass.isSome ∧
        ∀ s, up = some s → s < h.classes.size := by
  cases superclass with
  | none => exact pure hsound ⟨rfl, rfl, nofun⟩
  | some ref =>
      refine (lookUp hsound ref).bind ?_
      rintro h' - hsound' v ⟨rfl, hv⟩
      cases v with
      | classRef c =>
          refine pure hsound' ⟨rfl, rfl, ?_⟩
          rintro s ⟨rfl⟩
          exact hv
      | _ => exact fail hsound' _

theorem methodTable {up : Option Address} {done ds : List FunctionDecl} {table : Bindings Address}
    (hsound : h.Sound law) (hframe : h.MethodFrame law up a)
    (hobeys : ObeysMethods law (.inside up) ds)
    (htable : ∀ name m, table.find? name = some m → h.Method law up name m)
    (hdone : h.Tabulates table done) :
    Upholds law σ see h a (Eval.methodTable table ds) (Eval.methodTable table ds) fun h' t =>
      (∀ name m, t.find? name = some m → h'.Method law up name m) ∧ h'.Tabulates t (done ++ ds) := by
  induction ds generalizing h table done with
  | nil => exact pure hsound ⟨htable, (List.append_nil done).symm ▸ hdone⟩
  | cons d ds ih =>
      obtain ⟨hd, hds⟩ := hobeys
      have hle := h.grows_addFunction law ⟨d, a, d.isInitializer⟩
      have hfunction := Heap.functionSound_new hframe.size hframe.not_receiver hd.lawful
      refine bind_getCurrent ((newFunction hsound hfunction).bind ?_)
      rintro h₁ - hsound₁ f ⟨rfl, rfl⟩
      rw [List.append_cons]
      refine ih hsound₁ (hframe.mono hle) hds ?_ ?_
      · intro name m hm
        rw [Bindings.find?_insert] at hm
        split at hm
        case isFalse => exact (htable name m hm).mono hle
        case isTrue hname =>
          cases hm
          exact hname ▸ hframe.method_new hd
      · exact hdone.insert (fun name m hm => (htable name m hm).size) d a d.isInitializer

theorem inMethodFrame {α : Type} {up : Option Address} {x x' : Eval α} {Q : Heap → α → Prop}
    (hstands : h.Stands law a k) (hup : ∀ s, up = some s → s < h.classes.size)
    (hx : ∀ h' b, h'.Sound law → h'.MethodFrame law up b → Upholds law σ see h' b x x' Q) :
    Upholds law σ see h a (Eval.inMethodFrame up x) (Eval.inMethodFrame up x') Q := by
  cases up with
  | none => exact hx h a hstands.sound ⟨hstands.code.size, fun _ => hstands.code, nofun⟩
  | some s =>
      refine bind_getCurrent ((newFrame hstands.sound (hstands.code.placed_superclass _) ?_).bind ?_)
      · intro name v hv
        obtain ⟨-, rfl⟩ := Bindings.eq_of_find?_single hv
        exact hup s rfl
      · rintro h₁ - hsound₁ b ⟨rfl, rfl⟩
        refine (hx _ _ hsound₁ ⟨?_, nofun, ?_⟩).inFrame
        · rw [Heap.frames_size_addFrame]
          exact Nat.lt_succ_self _
        · rintro _ ⟨rfl⟩
          rw [Heap.addFrame_new]
          exact ⟨rfl, fun _ => rfl⟩

/-- A class statement makes a class of its superclass and of its methods. -/
theorem makeClass {name : Token} {up : Option Address} {methods : List FunctionDecl}
    (hstands : h.Stands law a k) (hname : law.Writes name.lexeme)
    (hup : ∀ s, up = some s → s < h.classes.size) (hobeys : ObeysMethods law (.inside up) methods) :
    Upholds law σ see h a (Eval.makeClass name up methods) (Eval.makeClass name up methods)
      fun h' _ => ∃ c, h.classes.size ≤ c ∧ h'.Realizes c up methods := by
  refine (defineHere (v := .nil) hstands.sound hstands.code.size hname trivial).bind ?_
  intro h₁ hle₁ hsound₁ _ _
  have hup₁ : ∀ s, up = some s → s < h₁.classes.size :=
    fun s hs => Nat.lt_of_lt_of_le (hup s hs) hle₁.classes
  refine (inMethodFrame (hstands.mono hle₁ hsound₁) hup₁ fun h₂ b hsound₂ hframe =>
    methodTable hsound₂ hframe hobeys (by simp) (show h₂.Tabulates [] [] from fun _ => rfl)).bind ?_
  rintro h₂ hle₂ hsound₂ table ⟨htable, htabulates⟩
  have hup₂ : ∀ s, up = some s → s < h₂.classes.size :=
    fun s hs => Nat.lt_of_lt_of_le (hup₁ s hs) hle₂.classes
  refine (newClass hsound₂ hup₂ htable).bind ?_
  rintro h₃ hle₃ hsound₃ c ⟨hh₃, rfl⟩
  have hc : h₂.classes.size < h₃.classes.size := by
    rw [hh₃, Heap.classes_size_addClass]
    exact Nat.lt_succ_self _
  have hclass : h₃.classObject h₂.classes.size = ⟨name.lexeme, up, table⟩ := by
    rw [hh₃, Heap.classObject_addClass, if_pos rfl]
  have hrealizes : h₃.Realizes h₂.classes.size up methods := by
    refine ⟨hc, by rw [hclass], ?_⟩
    rw [hclass]
    exact (Heap.Tabulates.mono hle₃ fun name m hm => (htable name m hm).size).mpr htabulates
  refine bind_getHeap (bind_getCurrent ?_)
  refine (onLine (Q := fun h' f => h' = h₃ ∧ f < h₃.frames.size) hsound₃ fun f hf => ⟨rfl, ?_⟩).bind ?_
  · unfold Heap.locate at hf
    split at hf
    case h_1 hfind =>
      cases hf
      exact Heap.size_of_contains (by simpa using List.find?_some hfind)
    case h_2 => cases hf
  · rintro h₄ - hsound₄ f ⟨rfl, hf⟩
    refine (define (v := .classRef _) hsound₄ hf hname hc).mono fun h₅ hle₅ _ _ _ => ?_
    exact ⟨_, Nat.le_trans hle₁.classes hle₂.classes, (hsound₄.realizes_iff hle₅ hc).mpr hrealizes⟩

theorem defineClass {name : Token} {superclass : Option Reference} {methods : List FunctionDecl}
    (hstands : h.Stands law a k) (hname : law.Writes name.lexeme)
    (hobeys : ObeysMethods law (.inside superclass) methods) :
    Upholds law σ see h a (Eval.defineClass σ name superclass methods)
      (Eval.defineClass σ name superclass methods) fun _ _ => True := by
  rw [Eval.defineClass_eq]
  refine (superclassOf hstands.sound superclass).bind ?_
  rintro h' hle hsound up ⟨rfl, hsome, hup⟩
  rw [ClassKind.inside, ← hsome] at hobeys
  exact (makeClass hstands hname hup hobeys).mono fun _ _ _ _ _ => trivial

theorem optionalValue (heval : Evaluates law σ see eval eval') {e : Option Expr}
    (hstands : h.Stands law a k) (hobeys : ∀ e', e = some e' → e'.Obeys law k) :
    Upholds law σ see h a (Eval.optionalValue eval e) (Eval.optionalValue eval' e)
      fun h' v => h'.Has law v := by
  cases e with
  | none => exact pure hstands.sound trivial
  | some e => exact heval h a k e hstands (hobeys e rfl)

theorem statement (heval : Evaluates law σ see eval eval') (hexec : Executes law σ see exec exec')
    (fuel : Nat) :
    Executes law σ see (Eval.statement σ fuel eval exec) (Eval.statement σ fuel eval' exec') := by
  intro h a k s hstands hobeys
  have hlawful : law.node (.stmt s) k := Node.Obeys.lawful hobeys
  have hwrites : ∀ name, s.declared? = some name → law.Writes name :=
    fun name hname => ⟨.stmt s, k, hlawful, hname⟩
  cases s with
  | expr value =>
      refine (heval h a k value hstands hobeys.2).bind ?_
      exact fun h₁ _ hsound₁ _ _ => normal hsound₁
  | print value =>
      refine (heval h a k value hstands hobeys.2).bind ?_
      intro h₁ _ hsound₁ v _
      refine (printValue hsound₁ v).bind ?_
      exact fun h₂ _ hsound₂ _ _ => normal hsound₂
  | var name initializer =>
      have hvalue : ∀ e, initializer = some e → e.Obeys law k := by
        rintro e rfl
        exact hobeys.2
      refine (optionalValue heval hstands hvalue).bind ?_
      intro h₁ hle₁ hsound₁ v hv
      have hstands₁ := hstands.mono hle₁ hsound₁
      refine (defineHere hsound₁ hstands₁.code.size (hwrites _ rfl) hv).bind ?_
      exact fun h₂ _ hsound₂ _ _ => normal hsound₂
  | block body => exact block (executeAll hexec) hstands hobeys.2
  | branch condition thenBranch elseBranch =>
      cases elseBranch with
      | none =>
          obtain ⟨-, hcondition, hthen⟩ := hobeys
          refine (heval h a k condition hstands hcondition).bind ?_
          intro h₁ hle₁ hsound₁ v _
          split
          · exact hexec h₁ a k thenBranch (hstands.mono hle₁ hsound₁) hthen
          · exact normal hsound₁
      | some elseBranch =>
          obtain ⟨-, hcondition, hthen, helse⟩ := hobeys
          refine (heval h a k condition hstands hcondition).bind ?_
          intro h₁ hle₁ hsound₁ v _
          split
          · exact hexec h₁ a k thenBranch (hstands.mono hle₁ hsound₁) hthen
          · exact hexec h₁ a k elseBranch (hstands.mono hle₁ hsound₁) helse
  | loop condition body =>
      obtain ⟨-, hcondition, hbody⟩ := hobeys
      refine repeatWhile (k := k) ?_ ?_ fuel hstands
      · exact fun h₁ hstands₁ => (heval h₁ a k condition hstands₁ hcondition).map
          fun _ _ _ _ _ => trivial
      · exact fun h₁ hstands₁ => hexec h₁ a k body hstands₁ hbody
  | function decl =>
      refine (closure hstands hobeys.2).bind ?_
      intro h₁ hle₁ hsound₁ v hv
      have hstands₁ := hstands.mono hle₁ hsound₁
      refine (defineHere hsound₁ hstands₁.code.size (hwrites _ rfl) hv).bind ?_
      exact fun h₂ _ hsound₂ _ _ => normal hsound₂
  | ret keyword value =>
      have hvalue : ∀ e, value = some e → e.Obeys law k := by
        rintro e rfl
        exact hobeys.2
      refine (optionalValue heval hstands hvalue).bind ?_
      exact fun h₁ _ hsound₁ v hv => pure hsound₁ hv
  | classDecl name superclass methods =>
      refine (defineClass hstands (hwrites _ rfl) hobeys.2).bind ?_
      exact fun h₁ _ hsound₁ _ _ => normal hsound₁

/-! ### Programs -/

theorem evaluates_executes (hnatives : ∀ native ∈ σ.natives, native.Conserves) (n : Nat) :
    Evaluates law σ see (Eval.evaluateWatched see σ n) (Eval.evaluate σ n) ∧
      Executes law σ see (Eval.executeWatched see σ n) (Eval.execute σ n) := by
  induction n with
  | zero =>
      constructor
      · exact fun h a k e hstands _ => throw hstands.sound .outOfFuel
      · exact fun h a k s hstands _ => throw hstands.sound .outOfFuel
  | succ n ih =>
      obtain ⟨heval, hexec⟩ := ih
      constructor
      · intro h a k e hstands hobeys
        refine seen hstands.sound hstands.code ⟨k, hstands.around, hobeys⟩ ?_ fun _ => ⟨n, rfl⟩
        exact expression heval (invoke (executeAll hexec) hnatives) h a k e hstands hobeys
      · intro h a k s hstands hobeys
        refine seen hstands.sound hstands.code ⟨k, hstands.around, hobeys⟩ ?_ fun _ => ⟨n, rfl⟩
        exact statement heval hexec n h a k s hstands hobeys

theorem interpret (hnatives : ∀ native ∈ σ.natives, native.Conserves) (n : Nat) {ss : List Stmt}
    (hstands : h.Stands law a k) (hobeys : ObeysStmts law k ss) :
    Upholds law σ see h a (Eval.interpretWatched see σ n ss) (Eval.interpret σ n ss)
      fun _ _ => True := by
  induction ss generalizing h with
  | nil => exact (flush hstands.sound).mono fun _ _ _ _ _ => trivial
  | cons s ss ih =>
      obtain ⟨hs, hss⟩ := hobeys
      refine ((evaluates_executes hnatives n).2 h a k s hstands hs).bind ?_
      intro h₁ hle₁ hsound₁ _ _
      exact ih (hstands.mono hle₁ hsound₁) hss

end Upholds

end LoxLang
