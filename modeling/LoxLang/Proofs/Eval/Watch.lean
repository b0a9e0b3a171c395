import Mathlib.Logic.Basic
import LoxLang.Eval.Run

/-!
Runs that are watched. A watched run is an ordinary run in which `see` is called at every node that
evaluation comes to; if `see` does nothing, it is the ordinary run. A run reaches a node in a machine
if stopping it there, with whatever fault, stops the run with this fault.
-/

namespace LoxLang

/-- A place in a program that evaluation comes to. -/
inductive Node where
  | expr (e : Expr)
  | stmt (s : Stmt)

/-- The reference that evaluation resolves for a node. -/
def Node.reference? : Node → Option Reference
  | .expr (.ident ref) => some ref
  | .expr (.assign ref _) => some ref
  | .expr (.this ref) => some ref
  | .expr (.super ref _) => some ref
  | .stmt (.classDecl _ superclass _) => superclass
  | _ => none

namespace Eval

mutual

def evaluateWatched (see : Node → Eval Unit) (σ : Setting) : Nat → Expr → Eval Value
  | 0, _ => throw .outOfFuel
  | n + 1, e => do
    see (.expr e)
    expression σ (evaluateWatched see σ n) (invoke σ (executeAll (executeWatched see σ n))) e

def executeWatched (see : Node → Eval Unit) (σ : Setting) : Nat → Stmt → Eval Flow
  | 0, _ => throw .outOfFuel
  | n + 1, s => do
    see (.stmt s)
    statement σ n (evaluateWatched see σ n) (executeWatched see σ n) s

end

def interpretWatched (see : Node → Eval Unit) (σ : Setting) (fuel : Nat) : List Stmt → Eval Unit
  | [] => flush
  | s :: rest => do
    let _ ← executeWatched see σ fuel s
    interpretWatched see σ fuel rest

/-- Sees nothing. -/
def idle (_ : Node) : Eval Unit :=
  return ()

theorem watched_idle (σ : Setting) (n : Nat) :
    evaluateWatched idle σ n = evaluate σ n ∧ executeWatched idle σ n = execute σ n := by
  induction n with
  | zero => exact ⟨funext fun _ => rfl, funext fun _ => rfl⟩
  | succ n ih =>
      obtain ⟨hevaluate, hexecute⟩ := ih
      constructor
      · funext e
        rw [evaluateWatched, evaluate, hevaluate, hexecute]
        rfl
      · funext s
        rw [executeWatched, execute, hevaluate, hexecute]
        rfl

theorem evaluateWatched_idle (σ : Setting) (n : Nat) : evaluateWatched idle σ n = evaluate σ n :=
  (watched_idle σ n).1

theorem interpretWatched_idle (σ : Setting) (fuel : Nat) (program : List Stmt) :
    interpretWatched idle σ fuel program = interpret σ fuel program := by
  induction program with
  | nil => rfl
  | cons s rest ih => rw [interpretWatched, interpret, (watched_idle σ fuel).2, ih]

open Classical in
/-- Stops a run at a node in a machine. -/
noncomputable def stopAt (node : Node) (m : Machine) (fault : Fault) (seen : Node) : Eval Unit :=
  fun n => if seen = node ∧ n = m then .error fault n else .ok () n

variable {α : Type} {node seen : Node} {m n : Machine} {fault : Fault}

theorem stopAt_of_ne (h : ¬(seen = node ∧ n = m)) : stopAt node m fault seen n = .ok () n :=
  if_neg h

theorem stopAt_self : stopAt node m fault node m = .error fault m :=
  if_pos ⟨rfl, rfl⟩

/-- A run that is watched comes to a node in a machine. -/
def Reaches (run : (Node → Eval Unit) → Eval α) (start : Machine) (node : Node) (m : Machine) :
    Prop :=
  ∀ fault, ∃ n, run (stopAt node m fault) start = .error fault n

/-- A run that comes to a node is stopped there with some fault or other, since it ends with one fault
at most where it is not stopped. -/
theorem Reaches.stopped {run : (Node → Eval Unit) → Eval α} {start : Machine} {P : Fault → Prop}
    {r : EStateM.Result Fault Machine α} (hreach : Reaches run start node m)
    (hrun : ∀ fault, run (stopAt node m fault) start = r ∨ P fault) : ∃ fault, P fault := by
  obtain ⟨n, hn⟩ := hreach .outOfFuel
  obtain ⟨n', hn'⟩ := hreach (.output "")
  rcases hrun .outOfFuel with hsame | hstops
  · rcases hrun (.output "") with hsame' | hstops
    · cases (hn.symm.trans (hsame.trans hsame'.symm)).trans hn'
    · exact ⟨_, hstops⟩
  · exact ⟨_, hstops⟩

end Eval

end LoxLang
