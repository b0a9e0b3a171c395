import LoxLang.Eval.Statement

/-!
Running programs. `evaluate` and `execute` close the semantics of single nodes over itself; fuel bounds
the depth of their recursion and the rounds of each loop, and running out of it is a fault of its own.
-/

namespace LoxLang.Eval

mutual

def evaluate (σ : Setting) : Nat → Expr → Eval Value
  | 0, _ => throw .outOfFuel
  | n + 1, e => expression σ (evaluate σ n) (invoke σ (executeAll (execute σ n))) e

def execute (σ : Setting) : Nat → Stmt → Eval Flow
  | 0, _ => throw .outOfFuel
  | n + 1, s => statement σ n (evaluate σ n) (execute σ n) s

end

/-- Executes a program up to its first fault and flushes the output. -/
def interpret (σ : Setting) (fuel : Nat) : List Stmt → Eval Unit
  | [] => flush
  | s :: rest => do
    let _ ← execute σ fuel s
    interpret σ fuel rest

end LoxLang.Eval
