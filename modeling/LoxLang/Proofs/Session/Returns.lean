import LoxLang.Proofs.Session.Jobs

/-!
Returns. A statement that ends by returning has come to one of its own returns, and gives nothing back
that this return has no value for: blocks, branches and loops pass a return on, and functions and classes
inside of it keep theirs. The static walk has let returns stand in functions only, and in initializers
only without a value. So the statements of a program never return, and the bodies of what a machine
treats as initializers return nothing.
-/

namespace LoxLang

open Scope

namespace Eval

/-- An action that returns only as some returns allow: with any value if one of them has a value, and
with nothing if one of them has none. -/
def Returns (bs : List Bool) (x : Eval Flow) : Prop :=
  ∀ m v n, x m = .ok (.returned v) n → true ∈ bs ∨ false ∈ bs ∧ v = .nil

namespace Returns

variable {α : Type} {bs bs' : List Bool} {x : Eval Flow}

theorem bind {y : Eval α} {f : α → Eval Flow} (hf : ∀ a, Returns bs (f a)) :
    Returns bs (y >>= f) := by
  intro m v n hrun
  change EStateM.bind y f m = _ at hrun
  unfold EStateM.bind at hrun
  split at hrun
  · exact hf _ _ v n hrun
  · cases hrun

theorem mono (hbs : bs ⊆ bs') (hx : Returns bs x) : Returns bs' x := by
  intro m v n hrun
  rcases hx m v n hrun with htrue | ⟨hfalse, hnil⟩
  · exact .inl (hbs htrue)
  · exact .inr ⟨hbs hfalse, hnil⟩

theorem normal (bs : List Bool) : Returns bs (return .normal) := by
  intro m v n hrun
  cases hrun

theorem throw (bs : List Bool) (fault : Fault) : Returns bs (throw fault) := by
  intro m v n hrun
  cases hrun

theorem inFrame {frame : Address} (hx : Returns bs x) : Returns bs (inFrame frame x) := by
  intro m v n hrun
  unfold Eval.inFrame at hrun
  split at hrun
  case h_1 a k hinside =>
    cases hrun
    exact hx _ v k hinside
  case h_2 => cases hrun

/-- What behind a statement returns after it has ended normally. -/
theorem andThen {rest : Eval Flow} (hx : Returns bs x) (hrest : Returns bs' rest) :
    Returns (bs ++ bs') (do
      match ← x with
      | .returned v => return .returned v
      | .normal => rest) := by
  intro m v n hrun
  change EStateM.bind x _ m = _ at hrun
  unfold EStateM.bind at hrun
  split at hrun
  case h_2 => cases hrun
  case h_1 flow k hfirst =>
    cases flow with
    | normal => exact (hrest.mono (List.subset_append_right ..)) k v n hrun
    | returned w =>
        cases hrun
        exact (hx.mono (List.subset_append_left ..)) m v n hfirst

variable {σ : Setting} {eval : Expr → Eval Value} {exec : Stmt → Eval Flow}

theorem executeAll (hexec : ∀ s, Returns s.returns (exec s)) (ss : List Stmt) :
    Returns (returnsStmts ss) (executeAll exec ss) := by
  induction ss with
  | nil => exact normal _
  | cons s ss ih => exact (hexec s).andThen ih

theorem repeatWhile {test : Eval Bool} (hx : Returns bs x) (n : Nat) :
    Returns bs (repeatWhile test x n) := by
  induction n with
  | zero => exact throw _ _
  | succ n ih =>
      refine bind fun goesOn => ?_
      split
      · exact (hx.andThen ih).mono (List.append_subset.mpr ⟨List.Subset.refl _, List.Subset.refl _⟩)
      · exact normal _

theorem optionalValue (e : Option Expr) :
    Returns [e.isSome] (do return .returned (← optionalValue eval e)) := by
  intro m v n hrun
  cases e with
  | none =>
      cases hrun
      exact .inr ⟨List.mem_singleton_self _, rfl⟩
  | some e => exact .inl (List.mem_singleton_self _)

/-- A statement returns as its returns allow if its parts do. -/
theorem statement (hexec : ∀ s, Returns s.returns (exec s)) (fuel : Nat) (s : Stmt) :
    Returns s.returns (statement σ fuel eval exec s) := by
  cases s with
  | expr | classDecl => exact bind fun _ => normal _
  | print | var | function => exact bind fun _ => bind fun _ => normal _
  | block body => exact bind fun _ => bind fun _ => (executeAll hexec body).inFrame
  | branch condition thenBranch elseBranch =>
      refine bind fun v => ?_
      cases elseBranch with
      | none =>
          split
          · exact hexec thenBranch
          · exact normal _
      | some elseBranch =>
          split
          · exact (hexec thenBranch).mono (List.subset_append_left ..)
          · exact (hexec elseBranch).mono (List.subset_append_right ..)
  | loop condition body => exact repeatWhile (hexec body) fuel
  | ret keyword value => exact optionalValue value

theorem execute (σ : Setting) (n : Nat) (s : Stmt) : Returns s.returns (execute σ n s) := by
  induction n generalizing s with
  | zero => exact throw _ _
  | succ n ih => exact statement ih n s

end Returns

end Eval

open Eval

theorem mem_returnsStmts {b : Bool} {s : Stmt} {ss : List Stmt} (hs : s ∈ ss) (hb : b ∈ s.returns) :
    b ∈ returnsStmts ss := by
  induction ss with
  | nil => cases hs
  | cons t ss ih =>
      rcases List.mem_cons.mp hs with rfl | hs
      · exact List.mem_append_left _ hb
      · exact List.mem_append_right _ (ih hs)

/-- At the top level no return is permitted. -/
theorem Chunk.returns_of_accepted {ss : List Stmt} (h : (Chunk.program ss).Accepted) :
    returnsStmts ss = [] := by
  have hreports := walkStmts_reports ss stands_initial
  have hlawful := List.filterMap_eq_nil_iff.mp (hreports.symm.trans h)
  refine List.eq_nil_iff_forall_not_mem.mpr fun b hb => ?_
  exact (returnsStmts_permitted (p := []) ss hlawful b hb).1 rfl

/-- The statements of a program that a session runs end normally or with a fault, so that a program drops
no returned value. Whatever machine a session passes, the body of each function that is flagged there as
an initializer ends normally, with a fault, or by returning nothing, however it is run. -/
theorem returns_as_permitted {natives : List Native}
    (hnatives : ∀ native ∈ natives, native.Conserves) (output : Output) (rs : List Request) :
    (∀ j ∈ (Session.initial natives output).jobs rs, ∀ ss, j.chunk = .program ss → ∀ s ∈ ss,
      ∀ σ n m flow m', execute σ n s m = .ok flow m' → flow = .normal) ∧
    ∀ p, (Machine.initial natives output).Passes natives ((Session.initial natives output).jobs rs) p →
      ∀ f < p.heap.functions.size, (p.heap.function f).isInitializer = true →
        ∀ σ n m flow m', executeAll (execute σ n) (p.heap.function f).decl.body m = .ok flow m' →
          flow = .normal ∨ flow = .returned .nil := by
  constructor
  · intro j hj ss hss s hs σ n m flow m' hrun
    obtain ⟨-, -, -, haccepted⟩ := Session.chunk_of_mem_jobs j hj
    have hnone : returnsStmts ss = [] := Chunk.returns_of_accepted (hss ▸ haccepted)
    cases flow with
    | normal => rfl
    | returned v =>
        rcases Returns.execute σ n s m v m' hrun with hb | ⟨hb, -⟩ <;>
          cases hnone ▸ mem_returnsStmts hs hb
  · intro p hp f hf hinit σ n m flow m' hrun
    obtain ⟨hsound, -, -⟩ := hp.sound hnatives Session.jobs_obey (Machine.ready_initial _ _ _)
    cases flow with
    | normal => exact .inl rfl
    | returned v =>
        refine .inr ?_
        rcases Returns.executeAll (Returns.execute σ n) _ m v m' hrun with hvalue | ⟨-, rfl⟩
        · exact absurd hvalue ((hsound.functions f hf).lawful hinit)
        · rfl

/-- An initializer that returns from within a block and a loop. -/
theorem returns_as_permitted_initializer :
    ∃ t, (Session.initial [.clock 0] .unlimited).handle
        (.run 9 "class A \x7b init() \x7b while (true) \x7b return; \x7d \x7d \x7d A();") = some t ∧
      t.status = .ok ∧ (t.session.machine.heap.function 1).isInitializer = true ∧
      ∀ σ n m flow m', executeAll (execute σ n) (t.session.machine.heap.function 1).decl.body m =
        .ok flow m' → flow = .normal ∨ flow = .returned .nil := by
  have hrun : ((Session.initial [.clock 0] .unlimited).handle
      (.run 9 "class A \x7b init() \x7b while (true) \x7b return; \x7d \x7d \x7d A();")).map (fun t =>
        (t.status, t.session.machine.heap.functions.size,
          (t.session.machine.heap.function 1).isInitializer)) = some (.ok, 2, true) := by
    decide +kernel
  obtain ⟨t, ht, h⟩ := Option.map_eq_some_iff.mp hrun
  obtain ⟨hstatus, h⟩ := Prod.mk.inj h
  obtain ⟨hsize, hinit⟩ := Prod.mk.inj h
  exact ⟨t, ht, hstatus, hinit, (returns_as_permitted (Native.conserves_of_clock 0 _) .unlimited _).2 _
    (Session.passes_handled ht []) 1 (hsize ▸ Nat.one_lt_two) hinit⟩

end LoxLang
