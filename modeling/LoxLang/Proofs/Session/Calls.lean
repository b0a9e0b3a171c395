import LoxLang.Proofs.Session.Jobs

/-!
Calls. Evaluation calls a value when it has come to a call and has given values to its parts, and calls
the initializer of a class for each new instance. Functions are called in sound heaps, and a function
that is called is one that a program can hold.
-/

namespace LoxLang

open Scope Eval

/-- In the course of some jobs, a value is called with some arguments: evaluation has come to a call
and has given values to its parts, or a class that is called has had its initializer bound to a new
instance. The body of a function that is called runs with `n` as its fuel. -/
inductive Machine.Calls (natives : List Native) (m : Machine) (js : List Job) :
    Setting → Nat → Value → List Value → Nat → Machine → Prop
  | written {j : Job} {callee : Expr} {paren : Token} {arguments : List Expr} {n : Nat} {v : Value}
    {vs : List Value} {p p₁ q : Machine}
    (hcomes : Comes natives m js j (.expr (.call callee paren arguments)) p)
    (hcallee : evaluate (j.setting natives) n callee p = .ok v p₁)
    (harguments : evaluateAll (evaluate (j.setting natives) n) arguments p₁ = .ok vs q)
    (harity : q.heap.arity? natives v = some vs.length) :
    Calls natives m js (j.setting natives) n v vs paren.line q
  | made {σ : Setting} {n line : Nat} {c method f : Address} {vs : List Value} {q q' : Machine}
    (hclass : Calls natives m js σ n (.classRef c) vs line q)
    (hfound : q.heap.findMethod? c FunctionDecl.initializerName = some method)
    (hbind : (do bindMethod method (.object (← newInstance ⟨c, []⟩))) q = .ok f q') :
    Calls natives m js σ n (.function f) vs line q'

section

variable {law : Law} {natives : List Native} {m p q q' : Machine} {j : Job} {js : List Job}
  {σ : Setting} {n line : Nat} {v w : Value} {vs : List Value} {c f : Address}

/-- A call that has a value has called a value. -/
theorem Machine.Comes.calls {callee : Expr} {paren : Token} {arguments : List Expr}
    (hcomes : Comes natives m js j (.expr (.call callee paren arguments)) p)
    (hrun : evaluate (j.setting natives) (n + 1) (.call callee paren arguments) p = .ok w q') :
    ∃ v vs q, Calls natives m js (j.setting natives) n v vs paren.line q ∧
      enter (j.setting natives) (executeAll (execute (j.setting natives) n)) v vs paren.line q =
        .ok w q' := by
  rw [evaluate, expression] at hrun
  obtain ⟨v, p₁, hcallee, hrun⟩ := Grammar.bind_ok_iff.mp hrun
  obtain ⟨vs, q, harguments, hrun⟩ := Grammar.bind_ok_iff.mp hrun
  obtain ⟨h, q₁, hheap, hrun⟩ := Grammar.bind_ok_iff.mp hrun
  cases hheap
  cases harity : q.heap.arity? (j.setting natives).natives v with
  | none =>
      rw [harity] at hrun
      cases hrun
  | some k =>
      rw [harity] at hrun
      dsimp only at hrun
      split at hrun
      case isTrue hlength =>
        exact ⟨v, vs, q, .written hcomes hcallee harguments (hlength ▸ harity), hrun⟩
      case isFalse => cases hrun

/-- The initializer that a class finds is bound to a new instance. -/
theorem Eval.bind_initializer {method : Address} (σ : Setting) (hsound : q.heap.Sound law)
    (hc : c < q.heap.classes.size)
    (hfound : q.heap.findMethod? c FunctionDecl.initializerName = some method)
    (hbind : (do bindMethod method (.object (← newInstance ⟨c, []⟩))) q = .ok f q') :
    q.heap.Grows law q'.heap ∧ q'.heap.Sound law ∧ q'.heap.Callable law f ∧
      (q'.heap.function f).decl.name = FunctionDecl.initializerName ∧
        ∃ d, q'.heap.Bound f d method q.heap.instances.size := by
  obtain ⟨i, q₁, hnew, hbind⟩ := Grammar.bind_ok_iff.mp hbind
  obtain ⟨hle₁, hsound₁, -, hq₁, rfl⟩ :=
    (Upholds.newInstance (σ := σ) hsound hc).of_ok hnew
  have hi : q.heap.instances.size < q₁.heap.instances.size := by
    rw [hq₁, Heap.instances_size_addInstance]
    exact Nat.lt_succ_self _
  obtain ⟨⟨d, -, hd⟩, hname⟩ := hsound.declares_of_findMethod? hc hfound
  obtain ⟨hle₂, hsound₂, -, hf, hbound⟩ :=
    (Upholds.bindMethod (σ := σ) hsound₁ (hd.mono hle₁) hi).of_ok hbind
  obtain ⟨_, hmethod⟩ := hd.method hsound
  have hle := hle₁.trans hle₂
  refine ⟨hle, hsound₂, hf, ?_, d, hbound⟩
  rw [hbound.decl, hle.function method hmethod.size, hname]

/-- What is called, and what it is called with, are values that programs can hold in a sound heap. -/
theorem Machine.Calls.sound (h : Calls natives m js σ n v vs line q)
    (hnatives : ∀ native ∈ natives, native.Conserves) (hobeys : ∀ j ∈ js, j.chunk.Obeys law)
    (hready : m.Ready law) : σ.natives = natives ∧ q.heap.Sound law ∧ q.heap.Has law v ∧
      ∀ w ∈ vs, q.heap.Has law w := by
  induction h with
  | @written j callee paren arguments n v vs p p₁ q hcomes hcallee harguments =>
      obtain ⟨⟨hsound, hcode, k, haround, hnode⟩, -⟩ := hcomes.admits hnatives hobeys hready
      obtain ⟨-, hcalleeObeys, hargumentsObey⟩ := hnode
      have heval : Upholds.Evaluates law (j.setting natives) idle _ (evaluate (j.setting natives) n) :=
        (Upholds.evaluates_executes hnatives n).1
      have hstands : p.heap.Stands law p.current k := ⟨hsound, hcode, haround⟩
      obtain ⟨hle₁, hsound₁, hcurrent₁, hv⟩ := (heval _ _ k callee hstands hcalleeObeys).of_ok hcallee
      have hall := Upholds.evaluateAll heval (hstands.mono hle₁ hsound₁) hargumentsObey
      obtain ⟨hle₂, hsound₂, -, hvs⟩ := (hcurrent₁ ▸ hall).of_ok harguments
      exact ⟨rfl, hsound₂, hv.mono hle₂, hvs⟩
  | @made σ _ _ _ _ _ _ _ _ _ hfound hbind ih =>
      obtain ⟨hσ, hsound, hc, hvs⟩ := ih
      obtain ⟨hle, hsound', hf, -⟩ := bind_initializer σ hsound hc hfound hbind
      exact ⟨hσ, hsound', hf, fun w hw => (hvs w hw).mono hle⟩

end

/-! ### Calls of names -/

section

variable {σ : Setting} {p : Machine} {ref : Reference}

theorem Eval.lookUp_eq (σ : Setting) (ref : Reference) (p : Machine) : lookUp σ ref p =
    onLine ref.name.line
      (match σ.distances.lookup ref.id with
        | some d => p.heap.getAt p.current d ref.name.lexeme
        | none => p.heap.get Heap.globals ref.name.lexeme) p := by
  have hlocate : locate σ ref p = onLine ref.name.line (match σ.distances.lookup ref.id with
      | some d => p.heap.locateAt p.current d ref.name.lexeme
      | none => p.heap.locate Heap.globals ref.name.lexeme) p := rfl
  change EStateM.bind (locate σ ref) _ p = _
  rw [EStateM.bind, hlocate]
  cases σ.distances.lookup ref.id with
  | none =>
      dsimp only [Heap.get]
      cases p.heap.locate Heap.globals ref.name.lexeme <;> rfl
  | some d =>
      dsimp only [Heap.getAt]
      cases p.heap.locateAt p.current d ref.name.lexeme <;> rfl

/-- Looking up a name changes nothing. -/
theorem Eval.lookUp_ok {v : Value} {p' : Machine} (h : lookUp σ ref p = .ok v p') : p' = p := by
  rw [lookUp_eq] at h
  generalize (match σ.distances.lookup ref.id with
    | some d => p.heap.getAt p.current d ref.name.lexeme
    | none => p.heap.get Heap.globals ref.name.lexeme) = r at h
  cases r with
  | ok w =>
      cases h
      rfl
  | error cause => cases h

/-- Looking for a superclass changes nothing. -/
theorem Eval.superclassOf_ok {superclass : Option Reference} {up : Option Address} {p' : Machine}
    (h : superclassOf σ superclass p = .ok up p') : p' = p ∧ up.isSome = superclass.isSome := by
  cases superclass with
  | none =>
      cases h
      exact ⟨rfl, rfl⟩
  | some ref =>
      obtain ⟨v, q, hlookUp, h⟩ := Grammar.bind_ok_iff.mp h
      cases lookUp_ok hlookUp
      cases v <;> cases h
      exact ⟨rfl, rfl⟩

/-- The name that an expression without arguments calls, and the parenthesis behind it. -/
def Chunk.called? : Chunk → Option (Reference × Token)
  | .expression (.call (.ident ref) paren []) => some (ref, paren)
  | _ => none

theorem Chunk.eq_of_called? {ch : Chunk} {ref : Reference} {paren : Token}
    (h : ch.called? = some (ref, paren)) : ch = .expression (.call (.ident ref) paren []) := by
  unfold called? at h
  split at h
  · cases h
    rfl
  · cases h

theorem Eval.ok_of_run' {α : Type} {x : Eval α} {p : Machine} {v : α} (h : x.run' p = some v) :
    ∃ q, x p = .ok v q := by
  unfold EStateM.run' EStateM.run at h
  cases hx : x p with
  | ok w q =>
      rw [hx] at h
      cases h
      exact ⟨q, rfl⟩
  | error fault q =>
      rw [hx] at h
      cases h

theorem Value.eq_of_same_function {v : Value} {f : Address} (h : v.same (.function f) = true) :
    v = .function f := by
  cases v <;> simp_all [same]

theorem Value.eq_of_same_classRef {v : Value} {c : Address} (h : v.same (.classRef c) = true) :
    v = .classRef c := by
  cases v <;> simp_all [same]

end

end LoxLang
