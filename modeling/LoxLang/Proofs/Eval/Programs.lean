import LoxLang.Proofs.Eval.Statements
import LoxLang.Proofs.Eval.Watch

/-!
Programs in lockstep. By induction on the fuel, trees that run alike are evaluated and executed in
lockstep. The run on the left is watched: what watches it may stop it only in worlds that satisfy `F`,
and is told what is known of the node that it stops at.
-/

namespace LoxLang

open Scope Eval

/-- What is known of a node that two runs have come to, where it stands in layers. -/
inductive Scope.Comes (K : Layers → Reference → Reference → Prop) (L : Nat → Nat → Prop) (W : World)
    (a : Address) : Node → Prop
  | expr {Γ : Layers} {e e' : Expr} (place : W.Matches a Γ) (alike : Alike K L Γ (.expr e e')) :
    Comes K L W a (.expr e)
  | stmt {Γ : Layers} {s s' : Stmt} (stands : W.Stands a Γ) (alike : Alike K L Γ (.stmt s s')) :
    Comes K L W a (.stmt s)

theorem Scope.Layers.after_globals (s : Stmt) : Layers.after [] s = [] := by
  unfold Layers.after
  split <;> rfl

namespace Lockstep

variable {K : Layers → Reference → Reference → Prop} {L : Nat → Nat → Prop} {F : World → Prop}
  {σ σ' : Setting} {limit : Nat} {W : World} {a : Address} {Γ : Layers}
  {see : Node → Eval Unit}

/-- Whatever a watcher does but letting the run go on, it does in worlds that satisfy `F`. -/
def Watches (K : Layers → Reference → Reference → Prop) (L : Nat → Nat → Prop) (F : World → Prop)
    (see : Node → Eval Unit) : Prop :=
  ∀ W a node m m', W.Good K L → Comes K L W a node → W.InStep a m m' →
    F W ∨ see node m = .ok () m

theorem watches_idle : Watches K L F idle :=
  fun _ _ _ _ _ _ _ _ => .inr rfl

/-- A watcher that stops at one node in one machine. -/
theorem watches_stopAt {node : Node} {m : Machine} {fault : Fault}
    (h : ∀ (W : World) m', W.Good K L → Comes K L W m.current node → W.InStep m.current m m' → F W) :
    Watches K L F (stopAt node m fault) := by
  intro W a seen n m' hgood hcomes hstep
  by_cases heq : seen = node ∧ n = m
  · obtain ⟨rfl, rfl⟩ := heq
    obtain rfl := hstep.current
    exact .inl (h W m' hgood hcomes hstep)
  · exact .inr (stopAt_of_ne heq)

theorem seen {α α' : Type} {x : Eval α} {x' : Eval α'} {R : World → α → α' → Prop} {node : Node}
    (hsee : Watches K L F see) (hgood : W.Good K L) (hcomes : Comes K L W a node)
    (hx : Lockstep K L F limit W a x x' R) :
    Lockstep K L F limit W a (do see node; x) x' R := by
  intro m m' hstep
  obtain hF | hsee := hsee W a node m m' hgood hcomes hstep
  · exact .inl ⟨W, .refl limit W, hF⟩
  have heq : (do see node; x) m = x m := by
    change EStateM.bind (see node) (fun _ => x) m = _
    rw [EStateM.bind, hsee]
  rw [heq]
  exact hx m m' hstep

theorem invokes {run run' : List Stmt → Eval Flow} (hrun : Runs K L F run run')
    (hnatives : σ'.natives = σ.natives) (hagree : ∀ native ∈ σ.natives, native.Agrees K L) :
    Invokes K L F (Eval.invoke σ run) (Eval.invoke σ' run') :=
  fun _ _ _ _ _ _ _ hgood hlimit hline hcallee harguments =>
    invoke hrun hnatives hagree hgood hlimit hline hcallee harguments

/-- Trees that run alike run in lockstep. -/
theorem evaluates_executes (hsee : Watches K L F see) (htables : Tables K L σ σ')
    (hnatives : σ'.natives = σ.natives) (hagree : ∀ native ∈ σ.natives, native.Agrees K L)
    (n : Nat) :
    Evaluates K L F (evaluateWatched see σ n) (evaluate σ' n) ∧
      Executes K L F (executeWatched see σ n) (execute σ' n) := by
  induction n with
  | zero =>
      constructor
      · intro limit W a Γ e e' hgood _ _ _ m m' hstep
        exact .inr (.error (.refl limit W) hgood hstep .outOfFuel)
      · intro limit W a Γ s s' hgood _ _ _ m m' hstep
        exact .inr (.error (.refl limit W) hgood hstep .outOfFuel)
  | succ n ih =>
      obtain ⟨heval, hexec⟩ := ih
      constructor
      · intro limit W a Γ e e' hgood hplace hlimit h
        refine seen hsee hgood (.expr hplace h) ?_
        have hcall := invokes (executeAll hexec) hnatives hagree
        exact expression heval hcall htables limit W a Γ e e' hgood hplace hlimit h
      · intro limit W a Γ s s' hgood hstands hlimit h
        refine seen hsee hgood (.stmt hstands h) ?_
        exact statement heval hexec htables n limit W a Γ s s' hgood hstands hlimit h

/-- The globals are where the statements of a program stand. -/
theorem stands_globals (hgood : W.Good K L) : W.Stands Heap.globals [] := by
  refine ⟨rfl, trivial, ?_, ?_⟩
  · rw [hgood.global_origin]
    exact nofun
  · rw [hgood.global_origin]
    exact nofun

theorem interpret (hsee : Watches K L F see) (htables : Tables K L σ σ')
    (hnatives : σ'.natives = σ.natives) (hagree : ∀ native ∈ σ.natives, native.Agrees K L)
    (n : Nat) {ss ss' : List Stmt} (hgood : W.Good K L) (h : Alike K L [] (.stmts ss ss')) :
    Lockstep K L F 0 W Heap.globals (interpretWatched see σ n ss) (Eval.interpret σ' n ss')
      fun _ _ _ => True := by
  induction ss generalizing ss' W with
  | nil =>
      cases h
      exact (flush hgood).mono fun _ _ _ _ _ _ => trivial
  | cons s ss ih =>
      cases h with
      | moreStmts hs hss =>
          rw [Layers.after_globals] at hss
          have hexec := (evaluates_executes hsee htables hnatives hagree n).2
          refine (hexec 0 W Heap.globals [] s _ hgood (stands_globals hgood) (Nat.zero_le _) hs).bind ?_
          rintro W₁ - hgood₁ _ _ -
          exact ih hgood₁ hss

end Lockstep

end LoxLang
