import LoxLang.Proofs.Scope.Parameters
import LoxLang.Proofs.Session.Calls

/-!
The protocol of calls. A call gives values to its callee and then to its arguments, in turn and up to the
first fault; it refuses a value that cannot be called, or not with so many arguments, and leaves the
machine as the last argument has left it. Bodies of functions start only for as many arguments as there
are parameters, which have different names: so each parameter is bound to an argument of its own, also
where the function is the initializer that a class has or inherits.
-/

namespace LoxLang

open Scope Eval

/-! ### Order -/

namespace Eval

/-- Expressions are given values in turn: each once, by the machine that the one before it has left, and
none behind the first that ends with a fault. -/
inductive InTurn (eval : Expr → Eval Value) :
    List Expr → Machine → EStateM.Result Fault Machine (List Value) → Prop
  | done {m : Machine} : InTurn eval [] m (.ok [] m)
  | fault {e : Expr} {es : List Expr} {m q : Machine} {fault : Fault} (h : eval e m = .error fault q) :
    InTurn eval (e :: es) m (.error fault q)
  | values {e : Expr} {es : List Expr} {m p q : Machine} {v : Value} {vs : List Value}
    (h : eval e m = .ok v p) (hrest : InTurn eval es p (.ok vs q)) :
    InTurn eval (e :: es) m (.ok (v :: vs) q)
  | later {e : Expr} {es : List Expr} {m p q : Machine} {v : Value} {fault : Fault}
    (h : eval e m = .ok v p) (hrest : InTurn eval es p (.error fault q)) :
    InTurn eval (e :: es) m (.error fault q)

theorem inTurn_evaluateAll (eval : Expr → Eval Value) (es : List Expr) (m : Machine) :
    InTurn eval es m (evaluateAll eval es m) := by
  induction es generalizing m with
  | nil => exact .done
  | cons e es ih =>
      change InTurn eval (e :: es) m (EStateM.bind (eval e) _ m)
      unfold EStateM.bind
      cases hvalue : eval e m with
      | error fault q => exact .fault hvalue
      | ok v p =>
          have hrest := ih p
          change InTurn eval (e :: es) m (EStateM.bind (evaluateAll eval es) _ p)
          unfold EStateM.bind
          cases hall : evaluateAll eval es p with
          | error fault q =>
              rw [hall] at hrest
              exact .later hvalue hrest
          | ok vs q =>
              rw [hall] at hrest
              exact .values hvalue hrest

theorem InTurn.evaluateAll_eq {eval : Expr → Eval Value} {es : List Expr} {m : Machine}
    {r : EStateM.Result Fault Machine (List Value)} (h : InTurn eval es m r) :
    evaluateAll eval es m = r := by
  induction h with
  | done => rfl
  | fault h => exact Grammar.bind_of_error h
  | values h _ ih =>
      rw [evaluateAll, Grammar.bind_of_ok h]
      exact Grammar.bind_of_ok ih
  | later h _ ih =>
      rw [evaluateAll, Grammar.bind_of_ok h]
      exact Grammar.bind_of_error ih

/-- How a call goes, begun by a machine `p`, and how it ends. -/
inductive Conduct (σ : Setting) (n : Nat) (callee : Expr) (paren : Token) (arguments : List Expr)
    (p : Machine) : EStateM.Result Fault Machine Value → Prop
  | callee {fault : Fault} {q : Machine} (h : evaluate σ n callee p = .error fault q) :
    Conduct σ n callee paren arguments p (.error fault q)
  | argument {v : Value} {p₁ q : Machine} {fault : Fault} (hcallee : evaluate σ n callee p = .ok v p₁)
    (h : InTurn (evaluate σ n) arguments p₁ (.error fault q)) :
    Conduct σ n callee paren arguments p (.error fault q)
  | notCallable {v : Value} {vs : List Value} {p₁ q : Machine}
    (hcallee : evaluate σ n callee p = .ok v p₁)
    (harguments : InTurn (evaluate σ n) arguments p₁ (.ok vs q))
    (h : q.heap.arity? σ.natives v = none) :
    Conduct σ n callee paren arguments p (.error (.runtime ⟨paren.line, .notCallable⟩) q)
  | wrongCount {v : Value} {vs : List Value} {p₁ q : Machine} {k : Nat}
    (hcallee : evaluate σ n callee p = .ok v p₁)
    (harguments : InTurn (evaluate σ n) arguments p₁ (.ok vs q))
    (harity : q.heap.arity? σ.natives v = some k) (h : vs.length ≠ k) :
    Conduct σ n callee paren arguments p
      (.error (.runtime ⟨paren.line, .wrongCount k vs.length⟩) q)
  | entered {v : Value} {vs : List Value} {p₁ q : Machine} (hcallee : evaluate σ n callee p = .ok v p₁)
    (harguments : InTurn (evaluate σ n) arguments p₁ (.ok vs q))
    (harity : q.heap.arity? σ.natives v = some vs.length) :
    Conduct σ n callee paren arguments p
      (enter σ (executeAll (execute σ n)) v vs paren.line q)

theorem conduct_call (σ : Setting) (n : Nat) (callee : Expr) (paren : Token) (arguments : List Expr)
    (p : Machine) :
    Conduct σ n callee paren arguments p (evaluate σ (n + 1) (.call callee paren arguments) p) := by
  rw [evaluate, expression]
  cases hcallee : evaluate σ n callee p with
  | error fault q =>
      rw [Grammar.bind_of_error hcallee]
      exact .callee hcallee
  | ok v p₁ =>
      rw [Grammar.bind_of_ok hcallee]
      have hturn := inTurn_evaluateAll (evaluate σ n) arguments p₁
      cases harguments : evaluateAll (evaluate σ n) arguments p₁ with
      | error fault q =>
          rw [harguments] at hturn
          rw [Grammar.bind_of_error harguments]
          exact .argument hcallee hturn
      | ok vs q =>
          rw [harguments] at hturn
          have hheap : getHeap q = .ok q.heap q := rfl
          rw [Grammar.bind_of_ok harguments, invoke, Grammar.bind_of_ok hheap]
          cases harity : q.heap.arity? σ.natives v with
          | none => exact .notCallable hcallee hturn harity
          | some k =>
              by_cases hlength : vs.length = k
              · subst hlength
                simp only [if_true]
                exact .entered hcallee hturn harity
              · simp only [if_neg hlength]
                exact .wrongCount hcallee hturn harity hlength

end Eval

/-! ### Parameters and arguments -/

theorem Bindings.insert_of_find?_none {α : Type} {b : Bindings α} {name : String} {v : α}
    (h : b.find? name = none) : b.insert name v = b ++ [(name, v)] := by
  induction b with
  | nil => rfl
  | cons entry rest ih =>
      obtain ⟨k, w⟩ := entry
      rw [find?] at h
      split at h
      case isTrue => cases h
      case isFalse hk => simp [insert, hk, ih h]

/-- With different names, parameters are bound in order. -/
theorem Eval.argumentBindings_eq_zip {params : List Token} {vs : List Value}
    (h : (params.map Token.lexeme).Nodup) :
    argumentBindings params vs = (params.map Token.lexeme).zip vs := by
  -- The bindings so far have none of the names to come.
  have key : ∀ (names : List String) (vs : List Value) (b : Bindings Value), names.Nodup →
      (∀ name ∈ names, b.find? name = none) →
        (names.zip vs).foldl (fun b p => b.insert p.1 p.2) b = b ++ names.zip vs := by
    intro names
    induction names with
    | nil => simp
    | cons name names ih =>
        intro vs b hnodup hfree
        cases vs with
        | nil => simp
        | cons v vs =>
            obtain ⟨hname, hnodup⟩ := List.nodup_cons.mp hnodup
            have hrest : ∀ other ∈ names, (b.insert name v).find? other = none := by
              intro other hother
              have hne : name ≠ other := fun heq => hname (heq ▸ hother)
              rw [Bindings.find?_insert, if_neg hne]
              exact hfree other (List.mem_cons_of_mem _ hother)
            rw [List.zip_cons_cons, List.foldl_cons, ih vs _ hnodup hrest,
              Bindings.insert_of_find?_none (hfree name (List.mem_cons_self ..)), List.append_assoc,
              List.singleton_append]
  exact key _ vs [] h fun _ _ => rfl

/-- In the machine `r`, which goes on from `q`, the body of a called function starts: in a new frame,
inside of the one that the function closes over, that binds the parameters to the arguments in order.
There are as many of these as of those, and no two parameters have the same name. -/
structure Machine.Starts (q : Machine) (f : Address) (vs : List Value) (r : Machine) : Prop where
  count : (q.heap.function f).decl.params.length = vs.length
  distinct : ((q.heap.function f).decl.params.map Token.lexeme).Nodup
  heap : r.heap = q.heap.addFrame ⟨((q.heap.function f).decl.params.map Token.lexeme).zip vs,
    some (q.heap.function f).closure, .call (q.heap.function f).decl⟩
  current : r.current = q.heap.frames.size
  output : r.output = q.output
  answered : r.answered = q.answered

theorem Bindings.find?_zip {α : Type} {names : List String} {vs : List α} {i : Nat} {name : String}
    {v : α} (hnodup : names.Nodup) (hname : names[i]? = some name) (hv : vs[i]? = some v) :
    find? (names.zip vs) name = some v := by
  induction names generalizing vs i with
  | nil => cases hname
  | cons first names ih =>
      obtain ⟨hfirst, hnodup⟩ := List.nodup_cons.mp hnodup
      cases vs with
      | nil => cases hv
      | cons w vs =>
          rw [List.zip_cons_cons, find?]
          cases i with
          | zero =>
              cases hname
              rw [if_pos rfl]
              exact hv
          | succ i =>
              have hne : first ≠ name := fun heq => hfirst (heq ▸ List.mem_of_getElem? hname)
              rw [if_neg hne]
              exact ih hnodup hname hv

section

variable {natives : List Native} {m q r : Machine} {js : List Job} {σ : Setting} {n line : Nat}
  {v : Value} {vs : List Value} {c f : Address} {run run' : List Stmt → Eval Flow}

/-- Each parameter reads as its argument. -/
theorem Machine.Starts.find?_eq (h : q.Starts f vs r) {i : Nat} {p : Token} {v : Value}
    (hp : (q.heap.function f).decl.params[i]? = some p) (hv : vs[i]? = some v) :
    (r.heap.frame r.current).bindings.find? p.lexeme = some v := by
  rw [h.heap, h.current, Heap.addFrame_new]
  apply Bindings.find?_zip h.distinct _ hv
  rw [List.getElem?_map, hp, Option.map_some]

/-- Binding a method to an object makes a copy of the method. -/
theorem Eval.bindMethod_eq (method i : Address) (p : Machine) :
    bindMethod method (.object i) p =
      .ok p.heap.functions.size { p with heap := p.heap.withBound method i } :=
  rfl

theorem Heap.function_withBound (h : Heap) (method i : Address) :
    (h.withBound method i).function h.functions.size =
      { h.function method with closure := h.frames.size } :=
  Heap.addFunction_new _ _

/-- The machine in which an initializer has been bound to a new instance. -/
theorem Eval.bind_initializer_eq (c method : Address) (q : Machine) :
    (do bindMethod method (.object (← newInstance ⟨c, []⟩))) q =
      .ok q.heap.functions.size { q with
        heap := (q.heap.addInstance ⟨c, []⟩).withBound method q.heap.instances.size } :=
  rfl

/-- The initializer is looked up again when the instance is there, and is the one that the arguments
have been counted for. -/
theorem Eval.enter_class (σ : Setting) (run : List Stmt → Eval Flow) (c : Address) (vs : List Value)
    (line : Nat) (q : Machine) : enter σ run (.classRef c) vs line q =
      match q.heap.findMethod? c FunctionDecl.initializerName with
      | none => .ok (.object q.heap.instances.size) { q with heap := q.heap.addInstance ⟨c, []⟩ }
      | some method =>
        (do
          let _ ← enter σ run (.function q.heap.functions.size) vs line
          return Value.object q.heap.instances.size) { q with
            heap := (q.heap.addInstance ⟨c, []⟩).withBound method q.heap.instances.size } := by
  have hclasses : (q.heap.addInstance ⟨c, []⟩).classes = q.heap.classes := rfl
  have hnew : newInstance ⟨c, []⟩ q =
    .ok q.heap.instances.size { q with heap := q.heap.addInstance ⟨c, []⟩ } := rfl
  change instantiate run c vs line q = _
  unfold instantiate
  rw [Grammar.bind_of_ok hnew, ← Heap.findMethod?_congr hclasses]
  refine (Grammar.bind_of_ok rfl).trans ?_
  dsimp only
  split
  case h_1 hnone =>
    rw [hnone]
    rfl
  case h_2 method hsome =>
    rw [hsome]
    exact Grammar.bind_of_ok (bindMethod_eq _ _ _)

/-- A value is called only with as many arguments as it takes. -/
theorem Machine.Calls.arity (h : Calls natives m js σ n v vs line q) :
    q.heap.arity? natives v = some vs.length := by
  cases h with
  | written _ _ _ harity => exact harity
  | @made _ _ _ c method f _ q₀ _ hclass hfound hbind =>
      have hcount : some (q₀.heap.function method).arity = some vs.length := by
        cases hclass with
        | written _ _ _ harity => simpa [Heap.arity?, hfound] using harity
      rw [bind_initializer_eq] at hbind
      cases hbind
      have hcopy := (q₀.heap.addInstance ⟨c, []⟩).function_withBound method q₀.heap.instances.size
      exact (congrArg (fun g : FunctionObject => some g.arity) hcopy).trans hcount

/-- A body starts with an argument for each parameter. -/
theorem Machine.Calls.starts (h : Calls natives m js σ n (.function f) vs line q)
    (hnatives : ∀ native ∈ natives, native.Conserves) (hobeys : ∀ j ∈ js, j.chunk.Obeys .distinct)
    (hready : m.Ready .distinct) : ∃ r, q.Starts f vs r ∧ ∀ run, callBody run f vs q =
      inFrame r.current (run (q.heap.function f).decl.body) { r with current := q.current } := by
  obtain ⟨-, hsound, hf, -⟩ := h.sound hnatives hobeys hready
  have hdistinct := (hsound.functions f hf.size).lawful
  refine ⟨⟨_, _, _, _⟩, ⟨Option.some.inj h.arity, hdistinct, rfl, rfl, rfl, rfl⟩, fun run => ?_⟩
  change inFrame q.heap.frames.size (run (q.heap.function f).decl.body)
    { q with heap := q.heap.opened f (argumentBindings (q.heap.function f).decl.params vs) } = _
  rw [argumentBindings_eq_zip hdistinct]
  rfl

/-- A class that finds no initializer takes no arguments, and runs nothing. -/
theorem Machine.Calls.bare (h : Calls natives m js σ n (.classRef c) vs line q)
    (hfound : q.heap.findMethod? c FunctionDecl.initializerName = none) :
    vs = [] ∧ ∀ run, enter σ run (.classRef c) vs line q =
      .ok (.object q.heap.instances.size) { q with heap := q.heap.addInstance ⟨c, []⟩ } := by
  constructor
  · have harity := h.arity
    simp only [Heap.arity?, hfound, Option.map_none, Option.getD_none, Option.some.injEq] at harity
    exact List.length_eq_zero_iff.mp harity.symm
  · intro run
    rw [enter_class, hfound]

/-- A class that finds an initializer calls it with the same arguments, bound to the new instance. -/
theorem Machine.Calls.initialized {method : Address} (h : Calls natives m js σ n (.classRef c) vs line q)
    (hfound : q.heap.findMethod? c FunctionDecl.initializerName = some method) :
    ∃ f q₁, Calls natives m js σ n (.function f) vs line q₁ ∧
      (q₁.heap.function f).decl = (q.heap.function method).decl ∧
      ∀ run, enter σ run (.classRef c) vs line q =
        (do let _ ← enter σ run (.function f) vs line; return Value.object q.heap.instances.size) q₁ := by
  have hcopy := (q.heap.addInstance ⟨c, []⟩).function_withBound method q.heap.instances.size
  refine ⟨_, _, .made h hfound (bind_initializer_eq c method q), ?_, fun run => ?_⟩
  · exact (congrArg FunctionObject.decl hcopy).trans rfl
  · rw [enter_class, hfound]

/-- How bodies run matters to a call only where the body of a function starts. -/
theorem Machine.Calls.enter_congr (h : Calls natives m js σ n v vs line q)
    (hnatives : ∀ native ∈ natives, native.Conserves) (hobeys : ∀ j ∈ js, j.chunk.Obeys .distinct)
    (hready : m.Ready .distinct)
    (hrun : ∀ f q₁ r, Calls natives m js σ n (.function f) vs line q₁ → q₁.Starts f vs r →
      run (q₁.heap.function f).decl.body r = run' (q₁.heap.function f).decl.body r) :
    enter σ run v vs line q = enter σ run' v vs line q := by
  have hfunction : ∀ f q₁, Calls natives m js σ n (.function f) vs line q₁ →
      callFunction run f vs line q₁ = callFunction run' f vs line q₁ := by
    intro f q₁ hf
    obtain ⟨r, hr, hbody⟩ := hf.starts hnatives hobeys hready
    have hsame : callBody run f vs q₁ = callBody run' f vs q₁ := by
      rw [hbody, hbody]
      unfold inFrame
      simp only [hrun f q₁ r hf hr]
    rw [callFunction_eq, callFunction_eq]
    change EStateM.bind (callBody run f vs) _ q₁ = EStateM.bind (callBody run' f vs) _ q₁
    unfold EStateM.bind
    rw [hsame]
  cases v with
  | function f => exact hfunction f q h
  | classRef c =>
      cases hfound : q.heap.findMethod? c FunctionDecl.initializerName with
      | none => rw [(h.bare hfound).2, (h.bare hfound).2]
      | some method =>
          obtain ⟨f, q₁, hf, -, henter⟩ := h.initialized hfound
          rw [henter, henter]
          change EStateM.bind (callFunction run f vs line) _ q₁ =
            EStateM.bind (callFunction run' f vs line) _ q₁
          unfold EStateM.bind
          rw [hfunction f q₁ hf]
  | _ => rfl

end

/-- A session has only such chunks run in which no function declares a parameter twice. -/
theorem Session.jobs_distinct {s : Session} {rs : List Request} :
    ∀ j ∈ s.jobs rs, j.chunk.Obeys .distinct := by
  intro j hj
  obtain ⟨i, r, hch, haccepted⟩ := chunk_of_mem_jobs j hj
  cases hchunk : j.chunk with
  | program ss =>
      rw [hchunk] at haccepted
      apply obeysStmts_distinct (p := []) ss
      have hreports := walkStmts_reports ss stands_initial
      exact List.filterMap_eq_nil_iff.mp (hreports.symm.trans haccepted)
  | expression e =>
      rw [hchunk] at haccepted
      apply e.obeys_distinct (p := [])
      have hreports := e.walk_reports stands_initial.reads
      exact List.filterMap_eq_nil_iff.mp (hreports.symm.trans haccepted)

/-- How calls go in the course of some jobs. -/
structure Machine.FillsParameters (natives : List Native) (m : Machine) (js : List Job) : Prop where
  /-- The callee and then the arguments are given values in turn, up to the first fault; then the call is
  refused at its closing parenthesis and changes nothing, or a value is entered. -/
  conduct : ∀ j callee paren arguments p, m.Comes natives js j (.expr (.call callee paren arguments)) p →
    ∀ n, Conduct (j.setting natives) n callee paren arguments p
      (evaluate (j.setting natives) (n + 1) (.call callee paren arguments) p)
  calls : ∀ j callee paren arguments p, m.Comes natives js j (.expr (.call callee paren arguments)) p →
    ∀ n v vs p₁ q, evaluate (j.setting natives) n callee p = .ok v p₁ →
      InTurn (evaluate (j.setting natives) n) arguments p₁ (.ok vs q) →
        q.heap.arity? natives v = some vs.length →
          m.Calls natives js (j.setting natives) n v vs paren.line q
  /-- The body of a function starts with just its parameters bound to just the arguments. -/
  starts : ∀ σ n f vs line q, m.Calls natives js σ n (.function f) vs line q → ∃ r, q.Starts f vs r ∧
    (∀ run, callBody run f vs q =
      inFrame r.current (run (q.heap.function f).decl.body) { r with current := q.current }) ∧
    ∀ (i : Nat) (p : Token) (v : Value), (q.heap.function f).decl.params[i]? = some p → vs[i]? = some v →
      (r.heap.frame r.current).bindings.find? p.lexeme = some v
  /-- A class without an initializer takes no arguments and runs nothing. -/
  bare : ∀ σ n c vs line q, m.Calls natives js σ n (.classRef c) vs line q →
    q.heap.findMethod? c FunctionDecl.initializerName = none →
      vs = [] ∧ ∀ run, enter σ run (.classRef c) vs line q =
        .ok (.object q.heap.instances.size) { q with heap := q.heap.addInstance ⟨c, []⟩ }
  /-- A class calls the initializer that it has or inherits, with the same arguments. -/
  initialized : ∀ σ n c vs line q, m.Calls natives js σ n (.classRef c) vs line q →
    ∀ method, q.heap.findMethod? c FunctionDecl.initializerName = some method →
      ∃ f q₁, m.Calls natives js σ n (.function f) vs line q₁ ∧
        (q₁.heap.function f).decl = (q.heap.function method).decl ∧
        ∀ run, enter σ run (.classRef c) vs line q =
          (do let _ ← enter σ run (.function f) vs line
              return Value.object q.heap.instances.size) q₁
  /-- How bodies run matters to no call in any other way. -/
  bodies : ∀ σ n v vs line q, m.Calls natives js σ n v vs line q → ∀ run run' : List Stmt → Eval Flow,
    (∀ f q₁ r, m.Calls natives js σ n (.function f) vs line q₁ → q₁.Starts f vs r →
      run (q₁.heap.function f).decl.body r = run' (q₁.heap.function f).decl.body r) →
        enter σ run v vs line q = enter σ run' v vs line q

/-- Wherever a session comes to a call, callee and arguments are given values in turn, and then a value is
called with as many arguments as it takes, or the call is refused. Bodies of functions, and of the
initializers of classes, start with just their parameters bound to just these arguments. -/
theorem calls_fill_parameters {natives : List Native}
    (hnatives : ∀ native ∈ natives, native.Conserves) {output : Output} {rs : List Request}
    {m : Machine} {js : List Job} (hm : m = .initial natives output)
    (hjs : js = (Session.initial natives output).jobs rs) : m.FillsParameters natives js := by
  have hready : m.Ready .distinct := hm ▸ Machine.ready_initial _ _ _
  have hobeys : ∀ j ∈ js, j.chunk.Obeys .distinct := hjs ▸ Session.jobs_distinct
  constructor
  case conduct => exact fun j callee paren arguments p _ n => conduct_call _ n callee paren arguments p
  case calls =>
    intro j callee paren arguments p hcomes n v vs p₁ q hcallee harguments harity
    exact .written hcomes hcallee harguments.evaluateAll_eq harity
  case starts =>
    intro σ n f vs line q hcalls
    obtain ⟨r, hr, hbody⟩ := hcalls.starts hnatives hobeys hready
    exact ⟨r, hr, hbody, fun i p v hp hv => hr.find?_eq hp hv⟩
  case bare => exact fun σ n c vs line q hcalls => hcalls.bare
  case initialized => exact fun σ n c vs line q hcalls method hfound => hcalls.initialized hfound
  case bodies =>
    intro σ n v vs line q hcalls run run' hrun
    exact hcalls.enter_congr hnatives hobeys hready hrun

/-- The name that an expression calls, the parenthesis behind it, and the arguments. -/
def Chunk.calledWith? : Chunk → Option (Reference × Token × List Expr)
  | .expression (.call (.ident ref) paren arguments) => some (ref, paren, arguments)
  | _ => none

theorem Chunk.eq_of_calledWith? {ch : Chunk} {ref : Reference} {paren : Token} {arguments : List Expr}
    (h : ch.calledWith? = some (ref, paren, arguments)) :
    ch = .expression (.call (.ident ref) paren arguments) := by
  unfold calledWith? at h
  split at h
  · cases h
    rfl
  · cases h

/-- A class that inherits its initializer is called with two arguments. -/
theorem calls_fill_parameters_inherited :
    ∃ (m : Machine) (js : List Job) (σ : Setting) (n line : Nat) (f : Address) (vs : List Value)
      (q r : Machine), m = .initial [.clock 0] .unlimited ∧
      js = (Session.initial [.clock 0] .unlimited).jobs
        [.run 9 "class A \x7b init(a, b) \x7b\x7d \x7d class B < A \x7b\x7d", .evaluate 9 "B(1, 2)"] ∧
      m.Calls [.clock 0] js σ n (.function f) vs line q ∧ vs.length = 2 ∧ q.Starts f vs r := by
  have hrun : (((Session.initial [.clock 0] .unlimited).handle
      (.run 9 "class A \x7b init(a, b) \x7b\x7d \x7d class B < A \x7b\x7d")).bind fun t =>
        (t.session.job? (.evaluate 9 "B(1, 2)")).bind fun j => j.chunk.calledWith?.bind fun c =>
          ((lookUp (j.setting [.clock 0]) c.1).run' t.session.machine).bind fun v =>
            ((do
              let vs ← evaluateAll (evaluate (j.setting [.clock 0]) 8) c.2.2
              let h ← getHeap
              return (vs.length, h.arity? [.clock 0] (.classRef 1),
                (h.findMethod? 1 FunctionDecl.initializerName).isSome) :
                  Eval (Nat × Option Nat × Bool)).run' t.session.machine).map fun found =>
              (v.same (.classRef 1), found)) = some (true, 2, some 2, true) := by decide +kernel
  obtain ⟨t, ht, hrun⟩ := Option.bind_eq_some_iff.mp hrun
  obtain ⟨j, hj, hrun⟩ := Option.bind_eq_some_iff.mp hrun
  obtain ⟨⟨ref, paren, arguments⟩, hcalled, hrun⟩ := Option.bind_eq_some_iff.mp hrun
  obtain ⟨v, hv, hrun⟩ := Option.bind_eq_some_iff.mp hrun
  obtain ⟨found, harguments, hrun⟩ := Option.map_eq_some_iff.mp hrun
  obtain ⟨hsame, rfl⟩ := Prod.mk.inj hrun
  cases Value.eq_of_same_classRef hsame
  obtain ⟨q₀, hlookUp⟩ := ok_of_run' hv
  cases lookUp_ok hlookUp
  obtain ⟨q₁, harguments⟩ := ok_of_run' harguments
  obtain ⟨vs, q, hall, harguments⟩ := Grammar.bind_ok_iff.mp harguments
  obtain ⟨h, q₂, hheap, harguments⟩ := Grammar.bind_ok_iff.mp harguments
  cases hheap
  obtain ⟨hcount, hclass⟩ := Prod.mk.inj (EStateM.Result.ok.inj harguments).1
  obtain ⟨harity, hfound⟩ := Prod.mk.inj hclass
  obtain ⟨method, hfound⟩ := Option.isSome_iff_exists.mp hfound
  have hfirst : j.chunk.first? = some (.expr (.call (.ident ref) paren arguments)) := by
    rw [Chunk.eq_of_calledWith? hcalled]
    rfl
  have hcomes := Session.comes_first hj hfirst rfl []
  rw [Session.natives_of_handle ht] at hcomes
  have hfills : ∀ rs, Machine.FillsParameters [.clock 0] (.initial [.clock 0] .unlimited)
      ((Session.initial [.clock 0] .unlimited).jobs rs) :=
    fun rs => calls_fill_parameters (Native.conserves_of_clock 0 _) rfl rfl
  have hclass := (hfills _).calls _ _ _ _ _ (Session.comes_handled ht hcomes) 8 (.classRef 1) vs _ q hlookUp
    (hall ▸ inTurn_evaluateAll _ _ _) (hcount ▸ harity)
  obtain ⟨f, q₃, hf, -⟩ := (hfills _).initialized _ _ _ _ _ _ hclass method hfound
  obtain ⟨r, hr, -⟩ := (hfills _).starts _ _ _ _ _ _ hf
  exact ⟨_, _, _, _, _, f, vs, q₃, r, rfl, rfl, hf, hcount, hr⟩

end LoxLang
