import LoxLang.Eval.Run

/-!
What every action of the semantics keeps. A relation between the machines before and behind an action
holds of all actions if it is kept by what they are made of: changes of the heap, texts added to the
output, and what goes on in another frame. It is shown of one construct at a time, for whatever
evaluates the parts of the construct, and of the recursion by induction on the fuel. The distances in
the setting may be any at all.
-/

namespace LoxLang

namespace Eval

/-- The machine as an action leaves it, however it ends. -/
def machineAfter {α : Type} (x : Eval α) (m : Machine) : Machine :=
  match x m with
  | .ok _ n => n
  | .error _ n => n

/-- An action leads from every machine to one that is related to it. -/
def Leads {α : Type} (R : Machine → Machine → Prop) (x : Eval α) : Prop :=
  ∀ m, R m (machineAfter x m)

/-- A relation that goes on from action to action. -/
structure Lasting (R : Machine → Machine → Prop) : Prop where
  refl (m : Machine) : R m m
  trans {m n p : Machine} (h : R m n) (h' : R n p) : R m p

/-- A relation that all changes of machines keep. -/
structure Steady (R : Machine → Machine → Prop) : Prop extends Lasting R where
  heap (m : Machine) (h : Heap) : R m { m with heap := h }
  append (m : Machine) (s : String) : R m { m with output := m.output.append s }
  answer (m : Machine) : R m { m with answered := m.answered + 1 }
  current {m n : Machine} {frame : Address} (h : R { m with current := frame } n) :
    R m { n with current := m.current }

namespace Lasting

section

variable {R : Machine → Machine → Prop} (hR : Lasting R) {α β : Type} {x : Eval α} {f : α → Eval β}
  {σ : Setting}

include hR

theorem pure (a : α) : Leads R (pure a : Eval α) :=
  hR.refl

theorem throw (fault : Fault) : Leads R (throw fault : Eval α) :=
  hR.refl

theorem bind (hx : Leads R x) (hf : ∀ a, Leads R (f a)) : Leads R (x >>= f) := by
  intro m
  have hfirst := hx m
  change R m (machineAfter (EStateM.bind x f) m)
  unfold machineAfter EStateM.bind at *
  generalize x m = r at hfirst
  cases r with
  | error fault n => exact hfirst
  | ok a n =>
      have hrest := hf a n
      unfold machineAfter at hrest
      exact hR.trans hfirst hrest

theorem map {g : α → β} (hx : Leads R x) : Leads R (g <$> x) := by
  rw [map_eq_pure_bind]
  exact hR.bind hx fun a => hR.pure (g a)

theorem get : Leads R (get : Eval Machine) :=
  hR.refl

theorem getHeap : Leads R getHeap :=
  hR.refl

theorem getCurrent : Leads R getCurrent :=
  hR.refl

theorem onLine (line : Nat) (r : Except RuntimeCause α) : Leads R (onLine line r) := by
  cases r with
  | ok a => exact hR.pure a
  | error cause => exact hR.throw _

theorem write (happend : ∀ m s, R m { m with output := m.output.append s }) (s : String) :
    Leads R (write s) := by
  unfold Eval.write
  split
  · exact hR.pure ()
  · apply hR.bind hR.get
    intro m
    apply hR.bind hR.get
    intro m'
    dsimp only
    split
    · exact hR.throw _
    · exact fun n => happend n s

theorem printValue (happend : ∀ m s, R m { m with output := m.output.append s }) (v : Value) :
    Leads R (printValue v) :=
  hR.bind hR.getHeap fun _ => hR.bind (hR.write happend _) fun _ => hR.write happend _

theorem flush : Leads R flush := by
  unfold Eval.flush
  apply hR.bind hR.get
  intro m
  split
  · exact hR.throw _
  · exact hR.pure ()

theorem locate (ref : Reference) : Leads R (locate σ ref) :=
  hR.bind hR.get fun _ => hR.onLine _ _

theorem lookUp (ref : Reference) : Leads R (lookUp σ ref) :=
  hR.bind (hR.locate ref) fun _ => hR.bind hR.getHeap fun _ => hR.pure _

theorem superclassOf (superclass : Option Reference) : Leads R (superclassOf σ superclass) := by
  cases superclass with
  | none => exact hR.pure _
  | some ref =>
      apply hR.bind (hR.lookUp ref)
      intro v
      split
      · exact hR.pure _
      · exact hR.throw _

end

end Lasting

namespace Steady

section

variable {R : Machine → Machine → Prop} (hR : Steady R) {α β : Type} {x : Eval α} {f : α → Eval β}

include hR

theorem changeHeap (change : Heap → Heap) : Leads R (changeHeap change) :=
  fun m => hR.heap m (change m.heap)

theorem allocate (free : Heap → Address) (add : Heap → Heap) : Leads R (allocate free add) :=
  fun m => hR.heap m (add m.heap)

theorem consult : Leads R consult :=
  hR.answer

theorem inFrame (frame : Address) (hx : Leads R x) : Leads R (inFrame frame x) := by
  intro m
  have hinside := hx { m with current := frame }
  unfold machineAfter Eval.inFrame at *
  generalize x { m with current := frame } = r at hinside
  cases r <;> exact hR.current hinside

/-! ### Output -/

theorem printValue (v : Value) : Leads R (printValue v) :=
  hR.toLasting.printValue hR.append v

/-! ### Variables -/

variable {σ : Setting}

theorem assignTo (ref : Reference) (v : Value) : Leads R (assignTo σ ref v) :=
  hR.bind (hR.locate ref) fun _ => hR.changeHeap _

theorem defineHere (name : String) (v : Value) : Leads R (defineHere name v) :=
  hR.bind hR.getCurrent fun _ => hR.changeHeap _

/-! ### Calls -/

variable {run : List Stmt → Eval Flow}

theorem callFunction (hrun : ∀ ss, Leads R (run ss)) (f : Address) (arguments : List Value)
    (line : Nat) : Leads R (callFunction run f arguments line) := by
  apply hR.bind hR.getHeap
  intro h
  apply hR.bind (hR.allocate _ _)
  intro frame
  apply hR.bind (hR.inFrame frame (hrun _))
  intro flow
  split
  · exact hR.bind hR.getHeap fun _ => hR.onLine _ _
  · cases flow with
    | returned v => exact hR.pure v
    | normal => exact hR.pure _

theorem bindMethod (method : Address) (receiver : Value) : Leads R (bindMethod method receiver) :=
  hR.bind hR.getHeap fun _ => hR.bind (hR.allocate _ _) fun _ => hR.allocate _ _

theorem instantiate (hrun : ∀ ss, Leads R (run ss)) (c : Address) (arguments : List Value)
    (line : Nat) : Leads R (instantiate run c arguments line) := by
  apply hR.bind (hR.allocate _ _)
  intro i
  apply hR.bind hR.getHeap
  intro h
  split
  · apply hR.bind (hR.bindMethod _ _)
    intro f
    exact hR.bind (hR.callFunction hrun f arguments line) fun _ => hR.pure _
  · exact hR.pure _

/-- Calls of host functions, functions and classes. -/
theorem enter (hrun : ∀ ss, Leads R (run ss)) (callee : Value) (arguments : List Value) (line : Nat) :
    Leads R (enter σ run callee arguments line) := by
  unfold Eval.enter
  split
  · split
    · apply hR.bind hR.consult
      intro sight
      split
      · exact hR.pure _
      · exact hR.throw _
    · exact hR.throw _
  · exact hR.callFunction hrun _ _ _
  · exact hR.instantiate hrun _ _ _
  · exact hR.throw _

theorem invoke (hrun : ∀ ss, Leads R (run ss)) (callee : Value) (arguments : List Value) (line : Nat) :
    Leads R (invoke σ run callee arguments line) := by
  apply hR.bind hR.getHeap
  intro h
  split
  · exact hR.throw _
  · split
    · exact hR.enter hrun _ _ _
    · exact hR.throw _

/-! ### Expressions -/

variable {eval : Expr → Eval Value} {call : Value → List Value → Nat → Eval Value}

theorem evaluateAll (heval : ∀ e, Leads R (eval e)) (es : List Expr) :
    Leads R (evaluateAll eval es) := by
  induction es with
  | nil => exact hR.pure []
  | cons e es ih => exact hR.bind (heval e) fun _ => hR.bind ih fun _ => hR.pure _

theorem closure (decl : FunctionDecl) : Leads R (closure decl) :=
  hR.bind hR.getCurrent fun _ => hR.bind (hR.allocate _ _) fun _ => hR.pure _

theorem property (i : Address) (name : Token) : Leads R (property i name) := by
  apply hR.bind hR.getHeap
  intro h
  dsimp only
  split
  · exact hR.pure _
  · split
    · exact hR.bind (hR.bindMethod _ _) fun _ => hR.pure _
    · exact hR.throw _

theorem superMethod (ref : Reference) (method : Token) : Leads R (superMethod σ ref method) := by
  unfold Eval.superMethod
  dsimp only
  split
  · exact hR.throw _
  · exact hR.throw _
  · apply hR.bind hR.get
    intro m
    apply hR.bind (hR.onLine _ _)
    intro superclass
    apply hR.bind (hR.onLine _ _)
    intro receiver
    split
    · split
      · exact hR.bind (hR.bindMethod _ _) fun _ => hR.pure _
      · exact hR.throw _
    · exact hR.throw _

/-- A node of an expression keeps what its parts and the calls that it makes keep. -/
theorem expression (heval : ∀ e, Leads R (eval e))
    (hcall : ∀ callee arguments line, Leads R (call callee arguments line)) (e : Expr) :
    Leads R (expression σ eval call e) := by
  cases e with
  | literal value => exact hR.pure _
  | group inner => exact heval inner
  | unary operator right => exact hR.bind (heval right) fun _ => hR.onLine _ _
  | binary left operator right =>
      exact hR.bind (heval left) fun _ => hR.bind (heval right) fun _ => hR.onLine _ _
  | logical left operator right =>
      apply hR.bind (heval left)
      intro v
      split
      · exact hR.pure v
      · exact heval right
  | ident ref => exact hR.lookUp ref
  | assign ref value =>
      exact hR.bind (heval value) fun _ => hR.bind (hR.assignTo ref _) fun _ => hR.pure _
  | call callee paren arguments =>
      exact hR.bind (heval callee) fun _ => hR.bind (hR.evaluateAll heval arguments) fun _ =>
        hcall _ _ _
  | function decl => exact hR.closure decl
  | get object name =>
      apply hR.bind (heval object)
      intro v
      split
      · exact hR.property _ name
      · exact hR.throw _
  | set object name value =>
      apply hR.bind (heval object)
      intro v
      split
      · exact hR.bind (heval value) fun _ => hR.bind (hR.changeHeap _) fun _ => hR.pure _
      · exact hR.throw _
  | this ref => exact hR.lookUp ref
  | super ref method => exact hR.superMethod ref method

/-! ### Statements -/

variable {exec : Stmt → Eval Flow}

theorem executeAll (hexec : ∀ s, Leads R (exec s)) (ss : List Stmt) : Leads R (executeAll exec ss) := by
  induction ss with
  | nil => exact hR.pure _
  | cons s ss ih =>
      apply hR.bind (hexec s)
      intro flow
      cases flow with
      | returned v => exact hR.pure _
      | normal => exact ih

theorem repeatWhile {test : Eval Bool} {body : Eval Flow} (htest : Leads R test)
    (hbody : Leads R body) (n : Nat) : Leads R (repeatWhile test body n) := by
  induction n with
  | zero => exact hR.throw _
  | succ n ih =>
      apply hR.bind htest
      intro goesOn
      split
      · apply hR.bind hbody
        intro flow
        cases flow with
        | returned v => exact hR.pure _
        | normal => exact ih
      · exact hR.pure _

theorem optionalValue (heval : ∀ e, Leads R (eval e)) (e : Option Expr) :
    Leads R (optionalValue eval e) := by
  cases e with
  | none => exact hR.pure _
  | some e => exact heval e

theorem methodTable (table : Bindings Address) (ds : List FunctionDecl) :
    Leads R (methodTable table ds) := by
  induction ds generalizing table with
  | nil => exact hR.pure _
  | cons d ds ih => exact hR.bind hR.getCurrent fun _ => hR.bind (hR.allocate _ _) fun _ => ih _

theorem inMethodFrame (superclass : Option Address) (hx : Leads R x) :
    Leads R (inMethodFrame superclass x) := by
  cases superclass with
  | none => exact hx
  | some c => exact hR.bind hR.getCurrent fun _ => hR.bind (hR.allocate _ _) fun _ => hR.inFrame _ hx

theorem defineClass (name : Token) (superclass : Option Reference) (methods : List FunctionDecl) :
    Leads R (defineClass σ name superclass methods) := by
  apply hR.bind (hR.superclassOf superclass)
  intro up
  apply hR.bind (hR.defineHere _ _)
  intro _
  apply hR.bind (hR.inMethodFrame up (hR.methodTable _ _))
  intro table
  apply hR.bind (hR.allocate _ _)
  intro c
  exact hR.bind hR.getHeap fun _ => hR.bind hR.getCurrent fun _ => hR.bind (hR.onLine _ _) fun _ =>
    hR.changeHeap _

/-- A node of a statement keeps what its parts keep. -/
theorem statement (heval : ∀ e, Leads R (eval e)) (hexec : ∀ s, Leads R (exec s)) (fuel : Nat)
    (s : Stmt) : Leads R (statement σ fuel eval exec s) := by
  cases s with
  | expr value => exact hR.bind (heval value) fun _ => hR.pure _
  | print value => exact hR.bind (heval value) fun _ => hR.bind (hR.printValue _) fun _ => hR.pure _
  | var name initializer =>
      exact hR.bind (hR.optionalValue heval initializer) fun _ => hR.bind (hR.defineHere _ _) fun _ =>
        hR.pure _
  | block body =>
      exact hR.bind hR.getCurrent fun _ => hR.bind (hR.allocate _ _) fun _ =>
        hR.inFrame _ (hR.executeAll hexec body)
  | branch condition thenBranch elseBranch =>
      apply hR.bind (heval condition)
      intro v
      split
      · exact hexec thenBranch
      · cases elseBranch with
        | some s => exact hexec s
        | none => exact hR.pure _
  | loop condition body => exact hR.repeatWhile (hR.map (heval condition)) (hexec body) fuel
  | function decl => exact hR.bind (hR.closure decl) fun _ => hR.bind (hR.defineHere _ _) fun _ => hR.pure _
  | ret keyword value => exact hR.bind (hR.optionalValue heval value) fun _ => hR.pure _
  | classDecl name superclass methods =>
      exact hR.bind (hR.defineClass name superclass methods) fun _ => hR.pure _

/-! ### Programs -/

theorem evaluate_execute (σ : Setting) (n : Nat) :
    (∀ e, Leads R (evaluate σ n e)) ∧ ∀ s, Leads R (execute σ n s) := by
  induction n with
  | zero => exact ⟨fun _ => hR.throw _, fun _ => hR.throw _⟩
  | succ n ih =>
      obtain ⟨heval, hexec⟩ := ih
      exact ⟨fun e => hR.expression heval (fun _ _ _ => hR.invoke (hR.executeAll hexec) _ _ _) e,
        fun s => hR.statement heval hexec n s⟩

theorem interpret (σ : Setting) (n : Nat) (ss : List Stmt) : Leads R (interpret σ n ss) := by
  induction ss with
  | nil => exact hR.flush
  | cons s ss ih => exact hR.bind ((hR.evaluate_execute σ n).2 s) fun _ => ih

end

end Steady

end Eval

end LoxLang
