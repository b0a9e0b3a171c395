import LoxLang.Proofs.Eval.Upkeep

/-!
The course of runs. A run that is watched comes to a node in a machine or goes on as if nothing watched
it. So a run of two actions, one behind the other, comes to what the first one comes to and to what the
second one comes to behind it, and a run of a node to what the parts of the node come to.
-/

namespace LoxLang

open Scope

namespace Eval

variable {α β : Type} {x : (Node → Eval Unit) → Eval α} {f : (Node → Eval Unit) → α → Eval β}
  {m m' p : Machine} {node : Node} {v : α}

/-- A run that restores the current frame, and that is stopped only at nodes that it comes to. -/
structure Watched (x : (Node → Eval Unit) → Eval α) : Prop where
  stops : ∀ m node p, Reaches x m node p ∨ ∀ fault, x (stopAt node p fault) m = x idle m
  restores : Restores (x idle)

/-! ### Sequencing -/

/-- A run does not come to a node if it makes no difference that it is to be stopped there. -/
theorem Reaches.false (h : Reaches x m node p)
    (hsame : ∀ fault, x (stopAt node p fault) m = x idle m) : False := by
  obtain ⟨_, hfalse⟩ := h.stopped (P := fun _ => False) fun fault => .inl (hsame fault)
  exact hfalse

theorem Reaches.left (h : Reaches x m node p) : Reaches (fun see => x see >>= f see) m node p := by
  intro fault
  obtain ⟨n, hn⟩ := h fault
  exact ⟨n, Grammar.bind_of_error hn⟩

namespace Watched

/-- An action that nothing watches. -/
theorem plain {x : Eval α} (hx : Restores x) : Watched fun _ => x :=
  ⟨fun _ _ _ => .inr fun _ => rfl, hx⟩

theorem current_of_ok (hx : Watched x) (hrun : x idle m = .ok v m') : m'.current = m.current := by
  have hrestored := hx.restores m
  unfold machineAfter at hrestored
  rw [hrun] at hrestored
  exact hrestored

theorem right (hx : Watched x) (hrun : x idle m = .ok v m') (h : Reaches (fun see => f see v) m' node p) :
    Reaches (fun see => x see >>= f see) m node p := by
  rcases hx.stops m node p with hreaches | hsame
  · exact hreaches.left
  · intro fault
    obtain ⟨n, hn⟩ := h fault
    exact ⟨n, (Grammar.bind_of_ok ((hsame fault).trans hrun)).trans hn⟩

/-- What a run of two actions comes to is come to by one of them. -/
theorem cases_bind (hx : Watched x) (h : Reaches (fun see => x see >>= f see) m node p) :
    Reaches x m node p ∨ ∃ v m', x idle m = .ok v m' ∧ Reaches (fun see => f see v) m' node p := by
  rcases hx.stops m node p with hreaches | hsame
  · exact .inl hreaches
  · cases hrun : x idle m with
    | ok v m' =>
        refine .inr ⟨v, m', rfl, fun fault => ?_⟩
        obtain ⟨n, hn⟩ := h fault
        exact ⟨n, (Grammar.bind_of_ok ((hsame fault).trans hrun)).symm.trans hn⟩
    | error fault' m' =>
        refine absurd h fun h => h.false fun fault => ?_
        exact (Grammar.bind_of_error ((hsame fault).trans hrun)).trans
          (Grammar.bind_of_error hrun).symm

theorem bind (hx : Watched x) (hf : ∀ v, Watched fun see => f see v) :
    Watched fun see => x see >>= f see := by
  refine ⟨fun m node p => ?_, Restores.steady.bind hx.restores fun v => (hf v).restores⟩
  rcases hx.stops m node p with hreaches | hsame
  · exact .inl hreaches.left
  · cases hrun : x idle m with
    | error fault' m' =>
        refine .inr fun fault => ?_
        rw [Grammar.bind_of_error hrun, Grammar.bind_of_error ((hsame fault).trans hrun)]
    | ok v m' =>
        rcases (hf v).stops m' node p with hreaches | hsame'
        · exact .inl (right hx hrun hreaches)
        · refine .inr fun fault => ?_
          rw [Grammar.bind_of_ok hrun, Grammar.bind_of_ok ((hsame fault).trans hrun), hsame']

theorem map {g : α → β} (hx : Watched x) : Watched fun see => g <$> x see := by
  simp only [map_eq_pure_bind]
  exact hx.bind fun v => .plain (Restores.steady.pure (g v))

theorem see (node : Node) : Watched fun see => see node := by
  refine ⟨fun m node' p => ?_, Restores.steady.pure ()⟩
  by_cases h : node = node' ∧ m = p
  · obtain ⟨rfl, rfl⟩ := h
    exact .inl fun fault => ⟨m, stopAt_self⟩
  · exact .inr fun fault => stopAt_of_ne h

/-- A run that sees a node first. -/
theorem seen (node : Node) (hx : Watched x) : Watched fun see => (do see node; x see) :=
  (see node).bind fun _ => hx

end Watched

theorem reaches_see {seen : Node} : Reaches (fun see => see seen) m node p ↔ seen = node ∧ m = p := by
  constructor
  · intro h
    by_contra hne
    exact h.false fun fault => stopAt_of_ne hne
  · rintro ⟨rfl, rfl⟩ fault
    exact ⟨m, stopAt_self⟩

/-- In another frame a run comes to what it comes to there. -/
theorem reaches_inFrame {b : Address} :
    Reaches (fun see => inFrame b (x see)) m node p ↔ Reaches x { m with current := b } node p := by
  constructor
  · intro h fault
    obtain ⟨n, hn⟩ := h fault
    change Eval.inFrame b (x (stopAt node p fault)) m = _ at hn
    unfold Eval.inFrame at hn
    cases hrun : x (stopAt node p fault) { m with current := b } with
    | ok v n' =>
        rw [hrun] at hn
        cases hn
    | error fault' n' =>
        rw [hrun] at hn
        cases hn
        exact ⟨n', rfl⟩
  · intro h fault
    obtain ⟨n, hn⟩ := h fault
    refine ⟨{ n with current := m.current }, ?_⟩
    change Eval.inFrame b (x (stopAt node p fault)) m = _
    unfold Eval.inFrame
    rw [hn]

namespace Watched

variable {σ : Setting} {eval : (Node → Eval Unit) → Expr → Eval Value}
  {exec : (Node → Eval Unit) → Stmt → Eval Flow} {run : (Node → Eval Unit) → List Stmt → Eval Flow}
  {call : (Node → Eval Unit) → Value → List Value → Nat → Eval Value}

theorem inFrame (b : Address) (hx : Watched x) : Watched fun see => inFrame b (x see) := by
  refine ⟨fun m node p => ?_, Restores.inFrame b _⟩
  rcases hx.stops { m with current := b } node p with hreaches | hsame
  · exact .inl (reaches_inFrame.mpr hreaches)
  · refine .inr fun fault => ?_
    unfold Eval.inFrame
    rw [hsame]

/-! ### Calls -/

section

variable (hrun : ∀ ss, Watched fun see => run see ss)

include hrun

theorem callBody (f : Address) (vs : List Value) : Watched fun see => callBody (run see) f vs := by
  refine (plain Restores.steady.getHeap).bind fun h => ?_
  exact (plain (Restores.steady.allocate _ _)).bind fun b => (hrun _).inFrame b

theorem callFunction (f : Address) (vs : List Value) (line : Nat) :
    Watched fun see => callFunction (run see) f vs line := by
  simp only [callFunction_eq]
  refine (plain Restores.steady.getHeap).bind fun h => (callBody hrun f vs).bind fun flow => .plain ?_
  split
  · exact Restores.steady.bind Restores.steady.getHeap fun _ => Restores.steady.onLine _ _
  · cases flow with
    | returned v => exact Restores.steady.pure v
    | normal => exact Restores.steady.pure _

theorem instantiate (c : Address) (vs : List Value) (line : Nat) :
    Watched fun see => instantiate (run see) c vs line := by
  refine (plain (Restores.steady.allocate _ _)).bind fun i => ?_
  refine (plain Restores.steady.getHeap).bind fun h => ?_
  cases h.findMethod? c FunctionDecl.initializerName with
  | none => exact .plain (Restores.steady.pure _)
  | some method =>
      refine (plain (Restores.steady.bindMethod _ _)).bind fun f => ?_
      exact (callFunction hrun f vs line).bind fun _ => .plain (Restores.steady.pure _)

theorem enter (v : Value) (vs : List Value) (line : Nat) :
    Watched fun see => enter σ (run see) v vs line := by
  cases v with
  | function f => exact callFunction hrun f vs line
  | classRef c => exact instantiate hrun c vs line
  | native i =>
      simp only [Eval.enter]
      cases σ.natives[i]? with
      | none => exact .plain (Restores.steady.throw _)
      | some native =>
          refine .plain (Restores.steady.bind Restores.steady.consult fun sight => ?_)
          split
          · exact Restores.steady.pure _
          · exact Restores.steady.throw _
  | _ => exact .plain (Restores.steady.throw _)

theorem invoke (v : Value) (vs : List Value) (line : Nat) :
    Watched fun see => invoke σ (run see) v vs line := by
  refine (plain Restores.steady.getHeap).bind fun h => ?_
  cases h.arity? σ.natives v with
  | none => exact .plain (Restores.steady.throw _)
  | some n =>
      dsimp only
      split
      · exact enter hrun v vs line
      · exact .plain (Restores.steady.throw _)

end

/-! ### Nodes -/

variable (heval : ∀ e, Watched fun see => eval see e)

include heval in
theorem evaluateAll (es : List Expr) : Watched fun see => evaluateAll (eval see) es := by
  induction es with
  | nil => exact .plain (Restores.steady.pure [])
  | cons e es ih => exact (heval e).bind fun v => ih.bind fun vs => .plain (Restores.steady.pure _)

include heval in
theorem expression (hcall : ∀ v vs line, Watched fun see => call see v vs line) (e : Expr) :
    Watched fun see => expression σ (eval see) (call see) e := by
  cases e with
  | literal value => exact .plain (Restores.steady.pure _)
  | group inner => exact heval inner
  | unary operator right =>
      exact (heval right).bind fun v => .plain (Restores.steady.onLine _ _)
  | binary left operator right =>
      exact (heval left).bind fun v => (heval right).bind fun w =>
        .plain (Restores.steady.onLine _ _)
  | logical left operator right =>
      refine (heval left).bind fun v => ?_
      split
      · exact .plain (Restores.steady.pure v)
      · exact heval right
  | ident ref | this ref => exact .plain (Restores.steady.lookUp ref)
  | assign ref value =>
      exact (heval value).bind fun v =>
        .plain (Restores.steady.bind (Restores.steady.assignTo ref v) fun _ => Restores.steady.pure v)
  | call callee paren arguments =>
      exact (heval callee).bind fun f => (evaluateAll heval arguments).bind fun vs =>
        hcall f vs paren.line
  | function decl => exact .plain (Restores.steady.closure decl)
  | get object name =>
      refine (heval object).bind fun v => ?_
      cases v with
      | object i => exact .plain (Restores.steady.property i name)
      | _ => exact .plain (Restores.steady.throw _)
  | set object name value =>
      refine (heval object).bind fun v => ?_
      cases v with
      | object i =>
          exact (heval value).bind fun w => .plain
            (Restores.steady.bind (Restores.steady.changeHeap _) fun _ => Restores.steady.pure w)
      | _ => exact .plain (Restores.steady.throw _)
  | super ref method => exact .plain (Restores.steady.superMethod ref method)

variable (hexec : ∀ s, Watched fun see => exec see s)

include hexec in
theorem executeAll (ss : List Stmt) : Watched fun see => executeAll (exec see) ss := by
  induction ss with
  | nil => exact .plain (Restores.steady.pure _)
  | cons s ss ih =>
      refine (hexec s).bind fun flow => ?_
      cases flow with
      | normal => exact ih
      | returned v => exact .plain (Restores.steady.pure _)

theorem repeatWhile {test : (Node → Eval Unit) → Eval Bool} {body : (Node → Eval Unit) → Eval Flow}
    (htest : Watched test) (hbody : Watched body) (n : Nat) :
    Watched fun see => repeatWhile (test see) (body see) n := by
  induction n with
  | zero => exact .plain (Restores.steady.throw _)
  | succ n ih =>
      refine htest.bind fun b => ?_
      cases b with
      | false => exact .plain (Restores.steady.pure _)
      | true =>
          refine hbody.bind fun flow => ?_
          cases flow with
          | normal => exact ih
          | returned v => exact .plain (Restores.steady.pure _)

include heval in
theorem optionalValue (e : Option Expr) : Watched fun see => optionalValue (eval see) e := by
  cases e with
  | none => exact .plain (Restores.steady.pure _)
  | some e => exact heval e

include heval hexec in
theorem statement (n : Nat) (s : Stmt) : Watched fun see => statement σ n (eval see) (exec see) s := by
  cases s with
  | expr value => exact (heval value).bind fun v => .plain (Restores.steady.pure _)
  | print value =>
      exact (heval value).bind fun v => .plain
        (Restores.steady.bind (Restores.steady.printValue v) fun _ => Restores.steady.pure _)
  | var name initializer =>
      exact (optionalValue heval initializer).bind fun v => .plain
        (Restores.steady.bind (Restores.steady.defineHere _ v) fun _ => Restores.steady.pure _)
  | block body =>
      refine (plain Restores.steady.getCurrent).bind fun here => ?_
      exact (plain (Restores.steady.allocate _ _)).bind fun b => (executeAll hexec body).inFrame b
  | branch condition thenBranch elseBranch =>
      refine (heval condition).bind fun v => ?_
      split
      · exact hexec thenBranch
      · cases elseBranch with
        | some s => exact hexec s
        | none => exact .plain (Restores.steady.pure _)
  | loop condition body => exact repeatWhile (heval condition).map (hexec body) n
  | function decl =>
      refine (plain (Restores.steady.closure decl)).bind fun v => .plain ?_
      exact Restores.steady.bind (Restores.steady.defineHere _ v) fun _ => Restores.steady.pure _
  | ret keyword value =>
      exact (optionalValue heval value).bind fun v => .plain (Restores.steady.pure _)
  | classDecl name superclass methods =>
      exact .plain (Restores.steady.bind (Restores.steady.defineClass name superclass methods)
        fun _ => Restores.steady.pure _)

/-! ### Programs -/

theorem evaluate_execute (σ : Setting) (n : Nat) :
    (∀ e, Watched fun see => evaluateWatched see σ n e) ∧
      ∀ s, Watched fun see => executeWatched see σ n s := by
  induction n with
  | zero => exact ⟨fun _ => .plain (Restores.steady.throw _), fun _ => .plain (Restores.steady.throw _)⟩
  | succ n ih =>
      obtain ⟨heval, hexec⟩ := ih
      constructor
      · exact fun e => .seen _ (expression heval (invoke (executeAll hexec)) e)
      · exact fun s => .seen _ (statement heval hexec n s)

theorem evaluated (σ : Setting) (n : Nat) (e : Expr) : Watched fun see => evaluateWatched see σ n e :=
  (evaluate_execute σ n).1 e

theorem executed (σ : Setting) (n : Nat) (s : Stmt) : Watched fun see => executeWatched see σ n s :=
  (evaluate_execute σ n).2 s

theorem executedAll (σ : Setting) (n : Nat) (ss : List Stmt) :
    Watched fun see => Eval.executeAll (executeWatched see σ n) ss :=
  executeAll (executed σ n) ss

theorem interpreted (σ : Setting) (n : Nat) (ss : List Stmt) :
    Watched fun see => interpretWatched see σ n ss := by
  induction ss with
  | nil => exact .plain Restores.steady.flush
  | cons s ss ih => exact (executed σ n s).bind fun _ => ih

end Watched

end Eval

end LoxLang
