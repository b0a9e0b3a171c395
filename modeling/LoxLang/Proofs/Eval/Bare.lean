import LoxLang.Eval.Run
import LoxLang.Proofs.Commuting
import LoxLang.Proofs.Store.Bare

/-!
Running without lines. Bare code does on the bare machine what the code does on the machine: it
makes the same objects in the same order, writes the same output, and ends with the same value or
with the same fault on line zero. So nothing of a run but the lines of its faults depends on lines,
provided that the host functions do not look at them.
-/

namespace LoxLang

def Machine.bare (m : Machine) : Machine :=
  { m with heap := m.heap.bare }

def Fault.bare : Fault → Fault
  | .runtime e => .runtime { e with line := 0 }
  | .output message => .output message
  | .outOfFuel => .outOfFuel

/-- A host function that gives the same whatever the lines of the code on the heap are. -/
def Native.IgnoresLines (native : Native) : Prop :=
  ∀ (h : Heap) (n : Nat) (arguments : List Value),
    native.run ⟨h.bare, n⟩ arguments = native.run ⟨h, n⟩ arguments

namespace Eval

variable {α β : Type} {f : α → β} {x : Eval α} {y : Eval β} {σ : Setting}
  {eval eval' : Expr → Eval Value} {exec exec' : Stmt → Eval Flow}
  {run run' : List Stmt → Eval Flow} {invoke invoke' : Value → List Value → Nat → Eval Value}

/-- The second action does on the bare machine what the first one does on the machine. -/
abbrev Forgets (f : α → β) (x : Eval α) (y : Eval β) : Prop :=
  Commutes Fault.bare Machine.bare f x y

/-! ### Single actions -/

theorem forgets_fail (line : Nat) (cause : RuntimeCause) :
    Forgets f (fail line cause) (fail 0 cause) :=
  .throw rfl

theorem forgets_onLine (line : Nat) (r : Except RuntimeCause α) :
    Forgets id (onLine line r) (onLine 0 r) := by
  cases r with
  | ok a => exact .pure rfl
  | error cause => exact forgets_fail line cause

theorem forgets_getHeap : Forgets Heap.bare getHeap getHeap :=
  fun _ => rfl

theorem forgets_getCurrent : Forgets id getCurrent getCurrent :=
  fun _ => rfl

theorem forgets_consult : Forgets (fun s => ⟨s.bare, s.answered⟩) consult consult :=
  fun _ => rfl

theorem forgets_changeHeap {change : Heap → Heap}
    (h : ∀ h : Heap, change h.bare = (change h).bare) :
    Forgets id (changeHeap change) (changeHeap change) := by
  apply Commutes.modify
  intro m
  exact congrArg (fun heap => { m with heap := heap }) (h m.heap)

theorem forgets_allocate {free : Heap → Address} {add add' : Heap → Heap}
    (hfree : ∀ h : Heap, free h.bare = free h) (hadd : ∀ h : Heap, add' h.bare = (add h).bare) :
    Forgets id (allocate free add) (allocate free add') := by
  intro m
  change EStateM.Result.ok (free m.heap.bare) { m with heap := add' m.heap.bare } = _
  rw [hfree, hadd]
  rfl

theorem forgets_newFrame (frame : Frame) : Forgets id (newFrame frame) (newFrame frame.bare) := by
  apply forgets_allocate
  · intro h
    simp [Heap.bare]
  · exact fun h => h.addFrame_bare frame

theorem forgets_newFunction (f : FunctionObject) :
    Forgets id (newFunction f) (newFunction f.bare) := by
  apply forgets_allocate
  · intro h
    simp [Heap.bare]
  · exact fun h => h.addFunction_bare f

theorem forgets_newClass (c : ClassObject) : Forgets id (newClass c) (newClass c) :=
  forgets_allocate (fun _ => rfl) fun _ => rfl

theorem forgets_newInstance (i : Instance) : Forgets id (newInstance i) (newInstance i) :=
  forgets_allocate (fun _ => rfl) fun _ => rfl

theorem forgets_define (a : Address) (name : String) (v : Value) :
    Forgets id (changeHeap (Heap.define a name v)) (changeHeap (Heap.define a name v)) :=
  forgets_changeHeap fun h => h.define_bare a name v

theorem forgets_setField (i : Address) (name : String) (v : Value) :
    Forgets id (changeHeap (Heap.setField i name v)) (changeHeap (Heap.setField i name v)) :=
  forgets_changeHeap fun _ => rfl

theorem forgets_inFrame (frame : Address) (hx : Forgets f x y) :
    Forgets f (inFrame frame x) (inFrame frame y) := by
  intro m
  have hinside : y { m.bare with current := frame } = _ := hx { m with current := frame }
  unfold inFrame
  rw [hinside]
  cases x { m with current := frame } <;> rfl

theorem forgets_write (s : String) : Forgets id (write s) (write s) := by
  refine .ite (.pure rfl) (Commutes.get.bind fun m => Commutes.get.bind fun n => ?_)
  dsimp only [Machine.bare]
  cases m.output.refusal n.output.text with
  | some message => exact .throw rfl
  | none => exact .modify fun _ => rfl

theorem forgets_flush : Forgets id flush flush := by
  refine Commutes.get.bind fun m => ?_
  dsimp only [Machine.bare]
  cases m.output.flushRefusal with
  | some message => exact .throw rfl
  | none => exact .pure rfl

/-! ### Variables -/

/-- Bare references have the identities that they had. -/
theorem bare_id (ref : Reference) : (ref.relabel .bare).id = ref.id :=
  UInt64.add_zero ref.id

theorem forgets_locate (ref : Reference) :
    Forgets id (locate σ ref) (locate σ (ref.relabel .bare)) := by
  refine Commutes.get.bind fun m => ?_
  rw [bare_id]
  cases σ.distances.lookup ref.id with
  | some distance =>
      dsimp only [Machine.bare]
      rw [Heap.locateAt_bare]
      exact forgets_onLine _ _
  | none =>
      dsimp only [Machine.bare]
      rw [Heap.locate_bare]
      exact forgets_onLine _ _

theorem forgets_lookUp (ref : Reference) :
    Forgets id (lookUp σ ref) (lookUp σ (ref.relabel .bare)) := by
  refine (forgets_locate ref).bind fun f => forgets_getHeap.bind fun h => .pure ?_
  rw [Heap.valueIn_bare]
  rfl

theorem forgets_assignTo (ref : Reference) (v : Value) :
    Forgets id (assignTo σ ref v) (assignTo σ (ref.relabel .bare) v) :=
  (forgets_locate ref).bind fun f => forgets_define f ref.name.lexeme v

theorem forgets_defineHere (name : String) (v : Value) :
    Forgets id (defineHere name v) (defineHere name v) :=
  forgets_getCurrent.bind fun here => forgets_define here name v

/-! ### Calls -/

theorem arity?_bare (h : Heap) (natives : List Native) (v : Value) :
    h.bare.arity? natives v = h.arity? natives v := by
  have harity : ∀ f, (h.bare.function f).arity = (h.function f).arity := by
    intro f
    simp [FunctionObject.arity, FunctionObject.bare, FunctionDecl.params_relabel]
  cases v with
  | function f => simp only [Heap.arity?, harity]
  | classRef c => simp only [Heap.arity?, Heap.findMethod?_bare, harity]
  | _ => rfl

theorem argumentBindings_relabel (μ : Relabelling) (params : List Token) (arguments : List Value) :
    argumentBindings (params.map (Token.relabel μ)) arguments =
      argumentBindings params arguments := by
  simp only [argumentBindings, List.map_map]
  rfl

theorem forgets_closure (decl : FunctionDecl) :
    Forgets id (closure decl) (closure (decl.relabel .bare)) :=
  forgets_getCurrent.bind fun here =>
    (forgets_newFunction ⟨decl, here, false⟩).bind fun _ => .pure rfl

theorem forgets_bindMethod (method : Address) (receiver : Value) :
    Forgets id (bindMethod method receiver) (bindMethod method receiver) := by
  refine forgets_getHeap.bind fun h => ?_
  rw [Heap.function_bare]
  refine (forgets_newFrame ⟨[(receiverName, receiver)], some (h.function method).closure,
    .receiver⟩).bind fun frame => ?_
  exact forgets_newFunction { h.function method with closure := frame }

section

variable (hrun : ∀ ss, Forgets id (run ss) (run' (relabelStmts .bare ss)))

include hrun

theorem forgets_callFunction (f : Address) (arguments : List Value) (line : Nat) :
    Forgets id (callFunction run f arguments line) (callFunction run' f arguments 0) := by
  refine forgets_getHeap.bind fun h => ?_
  rw [Heap.function_bare]
  generalize h.function f = o
  -- The bare function has as many parameters, of the same names, and the bare body.
  dsimp only [FunctionObject.bare]
  rw [FunctionDecl.params_relabel, argumentBindings_relabel, FunctionDecl.body_relabel]
  refine (forgets_newFrame ⟨argumentBindings o.decl.params arguments, some o.closure,
    .call o.decl⟩).bind fun frame => ?_
  refine (forgets_inFrame frame (hrun o.decl.body)).bind fun flow => .ite ?_ ?_
  · refine forgets_getHeap.bind fun h => ?_
    rw [Heap.getAt_bare]
    exact forgets_onLine _ _
  · cases flow <;> exact .pure rfl

theorem forgets_instantiate (c : Address) (arguments : List Value) (line : Nat) :
    Forgets id (instantiate run c arguments line) (instantiate run' c arguments 0) := by
  refine (forgets_newInstance ⟨c, []⟩).bind fun i => forgets_getHeap.bind fun h => ?_
  rw [Heap.findMethod?_bare]
  cases h.findMethod? c FunctionDecl.initializerName with
  | none => exact .pure rfl
  | some method =>
      refine (forgets_bindMethod method (.object i)).bind fun f => ?_
      exact (forgets_callFunction hrun f arguments line).bind fun _ => .pure rfl

theorem forgets_invoke (hnatives : ∀ native ∈ σ.natives, native.IgnoresLines) (callee : Value)
    (arguments : List Value) (line : Nat) :
    Forgets id (Eval.invoke σ run callee arguments line)
      (Eval.invoke σ run' callee arguments 0) := by
  refine forgets_getHeap.bind fun h => ?_
  rw [arity?_bare]
  cases h.arity? σ.natives callee with
  | none => exact forgets_fail _ _
  | some n =>
      refine .ite ?_ (forgets_fail _ _)
      cases callee with
      | native i =>
          unfold enter
          dsimp only
          cases hnative : σ.natives[i]? with
          | none => exact forgets_fail _ _
          | some native =>
              refine forgets_consult.bind fun s => ?_
              rw [hnatives native (List.mem_of_getElem? hnative) s.toHeap s.answered arguments]
              cases native.run s arguments with
              | ok v => exact .pure rfl
              | error message => exact forgets_fail _ _
      | function f => exact forgets_callFunction hrun f arguments line
      | classRef c => exact forgets_instantiate hrun c arguments line
      | _ => exact forgets_fail _ _

end

/-! ### Expressions -/

theorem forgets_property (i : Address) (name : Token) :
    Forgets id (property i name) (property i (name.relabel .bare)) := by
  refine forgets_getHeap.bind fun h => ?_
  rw [Heap.instanceObject_bare, Token.lexeme_relabel]
  dsimp only
  cases (h.instanceObject i).fields.find? name.lexeme with
  | some v => exact .pure rfl
  | none =>
      dsimp only
      rw [Heap.findMethod?_bare]
      cases h.findMethod? (h.instanceObject i).classAddress name.lexeme with
      | some method => exact (forgets_bindMethod method _).bind fun _ => .pure rfl
      | none => exact forgets_fail _ _

theorem forgets_superMethod (ref : Reference) (method : Token) :
    Forgets id (superMethod σ ref method)
      (superMethod σ (ref.relabel .bare) (method.relabel .bare)) := by
  unfold superMethod
  rw [bare_id]
  cases σ.distances.lookup ref.id with
  | none => exact forgets_fail _ _
  | some distance =>
      cases distance with
      | zero => exact forgets_fail _ _
      | succ inner =>
          refine Commutes.get.bind fun m => ?_
          dsimp only [Machine.bare]
          rw [Heap.getAt_bare, Heap.getAt_bare]
          refine (forgets_onLine _ _).bind fun superclass => ?_
          refine (forgets_onLine _ _).bind fun receiver => ?_
          cases superclass with
          | classRef c =>
              cases receiver with
              | object i =>
                  dsimp only [id]
                  rw [Heap.findMethod?_bare, Token.lexeme_relabel]
                  cases m.heap.findMethod? c method.lexeme with
                  | some found => exact (forgets_bindMethod found _).bind fun _ => .pure rfl
                  | none => exact forgets_fail _ _
              | _ => exact forgets_fail _ _
          | _ => exact forgets_fail _ _

section

variable (heval : ∀ e, Forgets id (eval e) (eval' (e.relabel .bare)))

include heval

theorem forgets_evaluateAll (es : List Expr) :
    Forgets id (evaluateAll eval es) (evaluateAll eval' (relabelExprs .bare es)) := by
  induction es with
  | nil => exact .pure rfl
  | cons e es ih => exact (heval e).bind fun v => ih.bind fun vs => .pure rfl

theorem forgets_expression
    (hinvoke : ∀ v vs line, Forgets id (invoke v vs line) (invoke' v vs 0)) (e : Expr) :
    Forgets id (expression σ eval invoke e) (expression σ eval' invoke' (e.relabel .bare)) := by
  cases e with
  | literal value => exact .pure rfl
  | group inner => exact heval inner
  | unary operator right => exact (heval right).bind fun v => forgets_onLine _ _
  | binary left operator right =>
      exact (heval left).bind fun v => (heval right).bind fun w => forgets_onLine _ _
  | logical left operator right =>
      exact (heval left).bind fun v => .ite (.pure rfl) (heval right)
  | ident ref => exact forgets_lookUp ref
  | assign ref value =>
      exact (heval value).bind fun v => (forgets_assignTo ref v).bind fun _ => .pure rfl
  | call callee paren arguments =>
      refine (heval callee).bind fun f => ?_
      exact (forgets_evaluateAll heval arguments).bind fun vs => hinvoke f vs paren.line
  | function decl => exact forgets_closure decl
  | get object name =>
      refine (heval object).bind fun v => ?_
      cases v with
      | object i => exact forgets_property i name
      | _ => exact forgets_fail _ _
  | set object name value =>
      refine (heval object).bind fun v => ?_
      cases v with
      | object i =>
          refine (heval value).bind fun v => ?_
          exact (forgets_setField i name.lexeme v).bind fun _ => .pure rfl
      | _ => exact forgets_fail _ _
  | this ref => exact forgets_lookUp ref
  | super ref method => exact forgets_superMethod ref method

end

/-! ### Statements -/

section

variable (hexec : ∀ s, Forgets id (exec s) (exec' (s.relabel .bare)))

include hexec

theorem forgets_executeAll (ss : List Stmt) :
    Forgets id (executeAll exec ss) (executeAll exec' (relabelStmts .bare ss)) := by
  induction ss with
  | nil => exact .pure rfl
  | cons s ss ih =>
      refine (hexec s).bind fun flow => ?_
      cases flow with
      | returned v => exact .pure rfl
      | normal => exact ih

end

theorem forgets_repeatWhile {test test' : Eval Bool} {body body' : Eval Flow}
    (htest : Forgets id test test') (hbody : Forgets id body body') (n : Nat) :
    Forgets id (repeatWhile test body n) (repeatWhile test' body' n) := by
  induction n with
  | zero => exact .throw rfl
  | succ n ih =>
      refine htest.bind fun b => .ite ?_ (.pure rfl)
      refine hbody.bind fun flow => ?_
      cases flow with
      | returned v => exact .pure rfl
      | normal => exact ih

theorem forgets_optionalValue (heval : ∀ e, Forgets id (eval e) (eval' (e.relabel .bare)))
    (value : Option Expr) :
    Forgets id (optionalValue eval value)
      (optionalValue eval' (value.map (Expr.relabel .bare))) := by
  cases value with
  | none => exact .pure rfl
  | some e => exact heval e

theorem forgets_printValue (v : Value) : Forgets id (printValue v) (printValue v) := by
  refine forgets_getHeap.bind fun h => ?_
  rw [Value.printed_bare]
  exact (forgets_write _).bind fun _ => forgets_write _

theorem forgets_superclassOf (superclass : Option Reference) :
    Forgets id (superclassOf σ superclass)
      (superclassOf σ (superclass.map (Reference.relabel .bare))) := by
  cases superclass with
  | none => exact .pure rfl
  | some ref =>
      refine (forgets_lookUp ref).bind fun v => ?_
      cases v with
      | classRef c => exact .pure rfl
      | _ => exact forgets_fail _ _

theorem forgets_inMethodFrame (superclass : Option Address) (hx : Forgets f x y) :
    Forgets f (inMethodFrame superclass x) (inMethodFrame superclass y) := by
  cases superclass with
  | none => exact hx
  | some c =>
      refine forgets_getCurrent.bind fun here => ?_
      refine (forgets_newFrame ⟨[(superclassName, .classRef c)], some here, .superclass⟩).bind
        fun frame => ?_
      exact forgets_inFrame frame hx

theorem forgets_methodTable (table : Bindings Address) (methods : List FunctionDecl) :
    Forgets id (methodTable table methods) (methodTable table (relabelMethods .bare methods)) := by
  induction methods generalizing table with
  | nil => exact .pure rfl
  | cons d methods ih =>
      rw [relabelMethods, methodTable, methodTable, FunctionDecl.isInitializer_relabel,
        FunctionDecl.name_relabel]
      refine forgets_getCurrent.bind fun here => ?_
      exact (forgets_newFunction ⟨d, here, d.isInitializer⟩).bind fun f => ih _

theorem forgets_defineClass (name : Token) (superclass : Option Reference)
    (methods : List FunctionDecl) :
    Forgets id (defineClass σ name superclass methods)
      (defineClass σ (name.relabel .bare) (superclass.map (Reference.relabel .bare))
        (relabelMethods .bare methods)) := by
  refine (forgets_superclassOf superclass).bind fun up => ?_
  refine (forgets_defineHere name.lexeme .nil).bind fun _ => ?_
  refine (forgets_inMethodFrame up (forgets_methodTable [] methods)).bind fun table => ?_
  refine (forgets_newClass ⟨name.lexeme, up, table⟩).bind fun c => ?_
  refine forgets_getHeap.bind fun h => forgets_getCurrent.bind fun here => ?_
  rw [Heap.locate_bare]
  exact (forgets_onLine _ _).bind fun f => forgets_define f name.lexeme (.classRef c)

theorem forgets_statement (heval : ∀ e, Forgets id (eval e) (eval' (e.relabel .bare)))
    (hexec : ∀ s, Forgets id (exec s) (exec' (s.relabel .bare))) (fuel : Nat) (s : Stmt) :
    Forgets id (statement σ fuel eval exec s) (statement σ fuel eval' exec' (s.relabel .bare)) := by
  cases s with
  | expr value => exact (heval value).bind fun _ => .pure rfl
  | print value =>
      exact (heval value).bind fun v => (forgets_printValue v).bind fun _ => .pure rfl
  | var name initializer =>
      rw [Stmt.relabel_var]
      refine (forgets_optionalValue heval initializer).bind fun v => ?_
      exact (forgets_defineHere name.lexeme v).bind fun _ => .pure rfl
  | block body =>
      refine forgets_getCurrent.bind fun here => ?_
      refine (forgets_newFrame ⟨[], some here, .block body⟩).bind fun frame => ?_
      exact forgets_inFrame frame (forgets_executeAll hexec body)
  | branch condition thenBranch elseBranch =>
      rw [Stmt.relabel_branch]
      refine (heval condition).bind fun v => .ite (hexec thenBranch) ?_
      cases elseBranch with
      | none => exact .pure rfl
      | some elseBranch => exact hexec elseBranch
  | loop condition body =>
      exact forgets_repeatWhile ((heval condition).map fun _ => rfl) (hexec body) fuel
  | function decl =>
      refine (forgets_closure decl).bind fun v => ?_
      rw [FunctionDecl.name_relabel]
      exact (forgets_defineHere decl.name v).bind fun _ => .pure rfl
  | ret keyword value =>
      rw [Stmt.relabel_ret]
      exact (forgets_optionalValue heval value).bind fun _ => .pure rfl
  | classDecl name superclass methods =>
      exact (forgets_defineClass name superclass methods).bind fun _ => .pure rfl

/-! ### Programs -/

section

variable (hnatives : ∀ native ∈ σ.natives, native.IgnoresLines)

include hnatives

theorem forgets_evaluate_execute (fuel : Nat) :
    (∀ e, Forgets id (evaluate σ fuel e) (evaluate σ fuel (e.relabel .bare))) ∧
      ∀ s, Forgets id (execute σ fuel s) (execute σ fuel (s.relabel .bare)) := by
  induction fuel with
  | zero => exact ⟨fun _ => .throw rfl, fun _ => .throw rfl⟩
  | succ n ih =>
      obtain ⟨heval, hexec⟩ := ih
      refine ⟨fun e => ?_, fun s => forgets_statement heval hexec n s⟩
      apply forgets_expression heval
      exact forgets_invoke (forgets_executeAll hexec) hnatives

theorem forgets_interpret (fuel : Nat) (program : List Stmt) :
    Forgets id (interpret σ fuel program) (interpret σ fuel (relabelStmts .bare program)) := by
  induction program with
  | nil => exact forgets_flush
  | cons s rest ih =>
      exact ((forgets_evaluate_execute hnatives fuel).2 s).bind fun _ => ih

end

end Eval

end LoxLang
