import LoxLang.Proofs.Eval.Steady
import LoxLang.Proofs.Session.Requests

/-!
The current frame as a register. Blocks, calls and the bodies of classes swap it and swap it back, and
nothing else writes to it. So every action of the semantics ends in the frame in which it began,
whether it has a result, returns from within loops and blocks, or is stopped by a fault at any depth.
-/

namespace LoxLang

open Scope

namespace Eval

/-- An action ends in the frame in which it began. -/
def Restores {α : Type} (x : Eval α) : Prop :=
  ∀ m, (machineAfter x m).current = m.current

namespace Restores

theorem steady : Steady fun m n => n.current = m.current where
  refl _ := rfl
  trans h h' := h'.trans h
  heap _ _ := rfl
  append _ _ := rfl
  answer _ := rfl
  current _ := rfl

/-- An action in another frame goes back to the frame before it, whatever the action does. -/
theorem inFrame {α : Type} (frame : Address) (x : Eval α) : Restores (inFrame frame x) := by
  intro m
  unfold machineAfter Eval.inFrame
  cases x { m with current := frame } <;> rfl

theorem map {α β : Type} {x : Eval α} {g : α → β} (hx : Restores x) : Restores (g <$> x) :=
  steady.map hx

theorem evaluate_execute (σ : Setting) (n : Nat) :
    (∀ e, Restores (evaluate σ n e)) ∧ ∀ s, Restores (execute σ n s) :=
  steady.evaluate_execute σ n

theorem interpret (σ : Setting) (n : Nat) (ss : List Stmt) : Restores (interpret σ n ss) :=
  steady.interpret σ n ss

section

variable {σ : Setting} {n : Nat}

theorem defineClass (name : Token) (superclass : Option Reference) (methods : List FunctionDecl) :
    Restores (defineClass σ name superclass methods) :=
  steady.defineClass name superclass methods

theorem callFunction (f : Address) (arguments : List Value) (line : Nat) :
    Restores (callFunction (executeAll (execute σ n)) f arguments line) :=
  steady.callFunction (steady.executeAll (evaluate_execute σ n).2) f arguments line

theorem instantiate (c : Address) (arguments : List Value) (line : Nat) :
    Restores (instantiate (executeAll (execute σ n)) c arguments line) :=
  steady.instantiate (steady.executeAll (evaluate_execute σ n).2) c arguments line

theorem enter (callee : Value) (arguments : List Value) (line : Nat) :
    Restores (enter σ (executeAll (execute σ n)) callee arguments line) :=
  steady.enter (steady.executeAll (evaluate_execute σ n).2) callee arguments line

end

end Restores

end Eval

open Eval

theorem Chunk.restores (ch : Chunk) (σ : Setting) (fuel : Nat) :
    Restores (ch.watched idle σ fuel) := by
  cases ch with
  | program ss =>
      simp only [Chunk.watched, interpretWatched_idle]
      exact (Restores.interpret σ fuel ss).map
  | expression e =>
      simp only [Chunk.watched, evaluateWatched_idle]
      exact ((Restores.evaluate_execute σ fuel).1 e).map

theorem Session.current_of_perform {α : Type} {action : Setting → Eval α} {s : Session}
    {t : Step α} (haction : ∀ σ, Restores (action σ)) (h : s.perform action = some t) :
    t.session.machine.current = s.machine.current := by
  have hrestored := haction s.setting s.machine
  unfold machineAfter at hrestored
  rcases perform_cases h with ⟨_, _, hrun, rfl⟩ | ⟨_, _, _, hrun, -, rfl⟩
  all_goals
    rw [hrun] at hrestored
    exact hrestored

theorem Session.current_of_handle {s : Session} {r : Request} {t : Step Answer}
    (h : s.handle r = some t) : t.session.machine.current = s.machine.current := by
  cases hch : r.chunk? s.nextId with
  | none =>
      obtain ⟨status, reports, answer, -, -, hhandle⟩ := handle_of_none hch
      rw [hhandle s rfl] at h
      cases h
      rfl
  | some ch =>
      rw [handle_of_chunk hch] at h
      split at h
      · exact current_of_perform (s := s.entered r) (fun σ => ch.restores σ r.fuel) h
      · cases h
        rfl

/-- Whatever a run does, it ends in the frame in which it began, in every machine, whether it succeeds or
not. -/
structure RestoresCurrent (σ : Setting) (n : Nat) : Prop where
  evaluate : ∀ e, Restores (evaluate σ n e)
  execute : ∀ s, Restores (execute σ n s)
  block : ∀ frame ss, Restores (inFrame frame (executeAll (Eval.execute σ n) ss))
  classDecl : ∀ name superclass methods, Restores (defineClass σ name superclass methods)
  function : ∀ f arguments line, Restores (callFunction (executeAll (Eval.execute σ n)) f arguments line)
  newInstance : ∀ c arguments line, Restores (instantiate (executeAll (Eval.execute σ n)) c arguments line)
  call : ∀ callee arguments line,
    Restores (enter σ (executeAll (Eval.execute σ n)) callee arguments line)
  /-- Whatever a session has been asked to do, it is at the globals between two requests. -/
  session : ∀ natives output s vs k, History natives output s vs k → s.machine.current = Heap.globals

/-- Evaluation, execution, blocks, classes and calls of any kind end in the frame in which they began,
under every table of distances, and sessions come back to the globals. -/
theorem current_restored (σ : Setting) (n : Nat) : RestoresCurrent σ n := by
  obtain ⟨heval, hexec⟩ := Restores.evaluate_execute σ n
  refine ⟨heval, hexec, fun _ _ => .inFrame _ _, fun _ _ _ => .defineClass _ _ _,
    fun _ _ _ => .callFunction _ _ _, fun _ _ _ => .instantiate _ _ _, fun _ _ _ => .enter _ _ _, ?_⟩
  intro natives output s vs k h
  induction h with
  | start => rfl
  | step _ hstep ih => exact (Session.current_of_handle hstep).trans ih

/-- A fault inside a block leaves a session at the globals. -/
theorem current_restored_after_fault :
    ∃ t, (Session.initial [.clock 0] .unlimited).handle (.run 9 "\x7b x; \x7d") = some t ∧
      t.status = .runtimeError ∧ t.session.machine.current = Heap.globals := by
  have hrun : ((Session.initial [.clock 0] .unlimited).handle (.run 9 "\x7b x; \x7d")).map Step.status =
      some .runtimeError := by decide +kernel
  obtain ⟨t, ht, hstatus⟩ := Option.map_eq_some_iff.mp hrun
  exact ⟨t, ht, hstatus, (current_restored ⟨[], []⟩ 0).session _ _ _ _ _ (.step .start ht)⟩

end LoxLang
