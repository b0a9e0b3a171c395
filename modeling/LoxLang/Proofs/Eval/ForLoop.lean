import LoxLang.Proofs.Eval.TandemNodes

/-!
`for` statements, executed as they are written: a scope is opened for the variable of the initializer,
and the initializer is run once; then test, body and increment take turns in this scope. Executing the
statement that the parser makes of it is in tandem with this. The scope that is opened for every round is
bypassed.
-/

namespace LoxLang

open Scope Eval

theorem Eval.executeAll_single (exec : Stmt → Eval Flow) (s : Stmt) : executeAll exec [s] = exec s := by
  rw [executeAll]
  refine (bind_congr fun r => ?_).trans (bind_pure _)
  cases r <;> rfl

/-- The value of a last expression statement is dropped. -/
theorem Eval.executeAll_expr (σ : Setting) (n : Nat) (e : Expr) :
    executeAll (execute σ n) [.expr e] = (do
      let _ ← evaluate σ (n - 1) e
      return .normal) := by
  rw [executeAll_single]
  cases n <;> rfl

namespace ForStatement

/-- Whether there is another round. Without a condition there always is. -/
def test (σ : Setting) (n : Nat) (f : ForStatement) : Eval Bool :=
  match f.condition with
  | some e => Value.isTruthy <$> evaluate σ n e
  | none => return true

/-- The body, and the increment unless the body has returned. -/
def round (σ : Setting) (n : Nat) (f : ForStatement) : Eval Flow :=
  match f.increment with
  | none => Eval.execute σ n f.body
  | some e => do
    match ← Eval.execute σ (n - 1) f.body with
    | .returned v => return .returned v
    | .normal => do
      let _ ← evaluate σ (n - 2) e
      return .normal

def rounds (σ : Setting) (n : Nat) (f : ForStatement) : Eval Flow :=
  repeatWhile (f.test σ n) (f.round σ n) n

/-- Executes the statement as it is written. All rounds are run in one scope, which is that of the
initializer if there is one. Fuel is counted as for the statement that the parser makes. -/
def execute (σ : Setting) : Nat → ForStatement → Eval Flow
  | 0, _ => throw .outOfFuel
  | n + 1, f =>
    match f.initializer with
    | none => f.rounds σ n
    | some s => do
      let here ← getCurrent
      let scope ← newFrame ⟨[], some here, .block [s]⟩
      inFrame scope do
        match ← Eval.execute σ n s with
        | .returned v => return .returned v
        | .normal => f.rounds σ (n - 1)

/-- What the parser has repeated. -/
def repeated (f : ForStatement) : Stmt :=
  match f.increment with
  | some e => .block [f.body, .expr e]
  | none => f.body

/-- The loop that the parser makes, without the initializer. -/
def loop (f : ForStatement) : Stmt :=
  .loop (f.condition.getD (.literal (.bool true))) f.repeated

theorem desugared_eq (f : ForStatement) : f.desugared = match f.initializer with
    | some s => .block [s, f.loop]
    | none => f.loop :=
  rfl

variable {F : Knowledge} {σ σ' : Setting} {W : Bypass} {a : Address} {k : Identity} {p : Path}
  {f : ForStatement}

/-- The parts of a statement that is spelled as parsed ones are. -/
structure Spelled (f : ForStatement) : Prop where
  initializer : ∀ s ∈ f.initializer, s.Spelled
  condition : ∀ e ∈ f.condition, e.Spelled
  increment : ∀ e ∈ f.increment, e.Spelled
  body : f.body.Spelled

theorem spelled_of_desugared (h : f.desugared.Spelled) : f.Spelled := by
  have hrepeated : f.repeated.Spelled → f.body.Spelled ∧ ∀ e ∈ f.increment, e.Spelled := by
    unfold repeated
    cases f.increment with
    | none => exact fun h => ⟨h, nofun⟩
    | some e =>
        rintro ⟨hbody, he, -⟩
        refine ⟨hbody, ?_⟩
        rintro _ ⟨⟩
        exact he
  have hloop : f.loop.Spelled → (∀ e ∈ f.condition, e.Spelled) ∧ f.body.Spelled ∧
      ∀ e ∈ f.increment, e.Spelled := by
    rintro ⟨hcondition, hbody, -⟩
    refine ⟨?_, hrepeated hbody⟩
    rintro e he
    rw [Option.mem_def.mp he] at hcondition
    exact hcondition
  rw [desugared_eq] at h
  cases hinitializer : f.initializer with
  | none =>
      rw [hinitializer] at h
      obtain ⟨hcondition, hbody, hincrement⟩ := hloop h
      exact ⟨by rw [hinitializer]; nofun, hcondition, hincrement, hbody⟩
  | some s =>
      rw [hinitializer] at h
      obtain ⟨hs, hrest, -⟩ := h
      obtain ⟨hcondition, hbody, hincrement⟩ := hloop hrest
      refine ⟨?_, hcondition, hincrement, hbody⟩
      rw [hinitializer]
      rintro _ ⟨⟩
      exact hs

end ForStatement

namespace Bypass.Tandem

variable {F : Knowledge} {σ σ' : Setting} {W : Bypass} {a : Address} {k : Identity} {p : Path}
  {f : ForStatement} {n : Nat}

open ForStatement

theorem forTest (heval : Evaluates F (evaluate σ n) (evaluate σ' n)) (hn : 0 < n)
    (hgood : W.Good F) (hspelled : f.Spelled) (hstands : W.Stands a none p.depth)
    (hknown : ∀ u ∈ usesClause f.condition p, F k none u) :
    Tandem F W a
      (Value.isTruthy <$> evaluate σ n (f.condition.getD (.literal (.bool true))))
      ((f.renumbered k).test σ' n) fun _ b b' => b' = b := by
  unfold ForStatement.test renumbered
  cases hcondition : f.condition with
  | none =>
      obtain ⟨n, rfl⟩ : ∃ m, n = m + 1 := ⟨n - 1, by omega⟩
      exact pure hgood rfl
  | some e =>
      rw [hcondition] at hknown
      have hruns : W.Runs F a k none p [] (e.uses p) := ⟨hstands, fun _ => rfl, hknown⟩
      refine (heval W a k none p e hgood (hspelled.condition e hcondition) hruns).map ?_
      rintro W₁ - - v v' ⟨rfl, -⟩
      rfl

/-- A round: the block that the parser puts around body and increment is bypassed. -/
theorem forRound (hboth : ∀ n, Evaluates F (evaluate σ n) (evaluate σ' n) ∧
      Executes F (execute σ n) (execute σ' n))
    (hgood : W.Good F) (hspelled : f.Spelled) (hstands : W.Stands a none p.depth)
    (hunchanged : f.increment = none → ∀ u ∈ f.body.uses p, F k none u)
    (hbody : f.increment ≠ none → ∀ u ∈ f.body.uses (.block [] :: p), F k (some (p.depth + 1)) u)
    (hincrement : ∀ u ∈ usesClause f.increment (.block [] :: p), F k (some (p.depth + 1)) u) :
    Tandem F W a (execute σ n f.repeated) ((f.renumbered k).round σ' n) (SameFlow F) := by
  unfold ForStatement.round renumbered repeated
  cases he : f.increment with
  | none =>
      have hruns : W.Runs F a k none p f.body.declares (f.body.uses p) :=
        ⟨hstands, fun _ => f.plain, hunchanged he⟩
      exact (hboth n).2 W a k none p f.body hgood hspelled.body hruns
  | some e =>
      rw [he] at hincrement
      have hbody := hbody (by rw [he]; exact Option.some_ne_none e)
      dsimp only [Option.map_some]
      cases n with
      | zero => exact throw hgood .outOfFuel
      | succ n =>
          refine enterBypassed ?_
          have hle := W.le_addBypassed a ⟨[], some a, .block [f.body, .expr e]⟩
          have hgood₁ : (W.addBypassed a ⟨[], some a, .block [f.body, .expr e]⟩).Good F :=
            hgood.addBypassed hstands.size rfl rfl
          have hstands₁ := hstands.addBypassed (o := ⟨[], some a, .block [f.body, .expr e]⟩)
            hgood.toGoodFrames rfl rfl
          generalize W.addBypassed a ⟨[], some a, .block [f.body, .expr e]⟩ = W₁ at *
          have hruns : ∀ us : List Use, (∀ u ∈ us, F k (some (p.depth + 1)) u) →
              W₁.Runs F W.left.frames.size k (some (p.depth + 1)) (.block [] :: p) [] us :=
            fun us hus => ⟨hstands₁, fun _ => rfl, hus⟩
          rw [Eval.executeAll]
          have hplain := hruns _ hbody
          rw [← f.plain] at hplain
          refine ((hboth n).2 W₁ _ k _ _ f.body hgood₁ hspelled.body hplain).bind ?_
          rintro W₂ hle₂ hgood₂ r r' ⟨rfl, hr⟩
          cases r' with
          | returned v => exact pure hgood₂ ⟨rfl, hr⟩
          | normal =>
              rw [executeAll_expr]
              have hvalue := (hruns _ hincrement).mono hle₂ hgood₁ hgood₂
              have heval := (hboth (n - 1)).1 W₂ _ k _ _ e hgood₂ (hspelled.increment e he) hvalue
              refine heval.bind ?_
              rintro W₃ - hgood₃ v v' -
              exact normal hgood₃

theorem forRounds (hboth : ∀ n, Evaluates F (evaluate σ n) (evaluate σ' n) ∧
      Executes F (execute σ n) (execute σ' n))
    (hgood : W.Good F) (hspelled : f.Spelled) (hstands : W.Stands a none (f.around p).depth)
    (hknown : f.Known F k p) :
    Tandem F W a (execute σ (n + 1) f.loop) ((f.renumbered k).rounds σ' n) (SameFlow F) := by
  refine repeatWhile n ?_ ?_ hgood
  · intro hn W₁ hle₁ hgood₁
    have hstands₁ := hstands.mono hle₁ hgood.toGoodFrames hgood₁.toGoodFrames
    exact forTest (hboth n).1 hn hgood₁ hspelled hstands₁ hknown.condition
  · intro W₁ hle₁ hgood₁
    have hstands₁ := hstands.mono hle₁ hgood.toGoodFrames hgood₁.toGoodFrames
    exact forRound hboth hgood₁ hspelled hstands₁ hknown.unchanged hknown.body hknown.increment

/-- The statement that the parser makes and the statement as it is written. -/
theorem forStatement (htables : Tables F σ σ') (hnatives : σ'.natives = σ.natives)
    (hfaithful : ∀ native ∈ σ.natives, native.Faithful) (n : Nat) (hgood : W.Good F)
    (hspelled : f.Spelled) (hstands : W.Stands a none p.depth) (hknown : f.Known F k p) :
    Tandem F W a (execute σ n f.desugared) ((f.renumbered k).execute σ' n) (SameFlow F) := by
  have hboth := evaluates_executes htables hnatives hfaithful
  rw [desugared_eq]
  cases n with
  | zero => exact throw hgood .outOfFuel
  | succ n =>
      unfold ForStatement.execute
      dsimp only
      cases hs : f.initializer with
      | none =>
          have hright : (f.renumbered k).initializer = none := by rw [renumbered, hs]; rfl
          have haround : f.around p = p := by rw [around, hs]
          rw [hright]
          rw [← haround] at hstands
          exact forRounds hboth hgood hspelled hstands hknown
      | some s =>
          have hright : (f.renumbered k).initializer = some (s.relabel (.renumber k)) := by
            rw [renumbered, hs]
            rfl
          have haround : f.around p = Path.behind s.declares (.block [] :: p) := by rw [around, hs]
          have huses : f.usesInitializer p = s.uses (.block [] :: p) := by
            rw [usesInitializer, hs]
            rfl
          rw [hright]
          dsimp only
          have hnew : W.FramesAround a ⟨[], some a, .block [s, f.loop]⟩
              ⟨[], some (W.image a), .block [s.relabel (.renumber k)]⟩ :=
            ⟨hstands.size, rfl, rfl, rfl⟩
          refine bind_getCurrent ((newFrame hgood hnew fun _ _ hv => by cases hv).bind ?_)
          rintro W₁ hle₁ hgood₁ b b' ⟨hW₁, rfl, rfl⟩
          have hstands₁ : W₁.Stands W.left.frames.size none (p.depth + 1) := by
            rw [hW₁]
            exact hstands.addFrame hgood.toGoodFrames hnew
          have hkept : ¬W₁.bypassed W.left.frames.size := by
            rw [hW₁]
            exact fun hpassed => hpassed.1 rfl
          refine inFrame hstands₁.size ?_
          rw [Eval.executeAll, executeAll_single]
          have hruns : W₁.Runs F W.left.frames.size k none (.block [] :: p) s.declares
              (s.uses (.block [] :: p)) :=
            ⟨hstands₁, fun hpassed => absurd hpassed hkept, huses ▸ hknown.initializer⟩
          have hexec := (hboth n).2 W₁ _ k none _ s hgood₁ (hspelled.initializer s hs) hruns
          refine hexec.bind ?_
          rintro W₂ hle₂ hgood₂ r r' ⟨rfl, hr⟩
          cases r' with
          | returned v => exact pure hgood₂ ⟨rfl, hr⟩
          | normal =>
              have hstands₂ : W₂.Stands W.left.frames.size none (f.around p).depth := by
                rw [haround, Path.depth_behind]
                exact hstands₁.mono hle₂ hgood₁.toGoodFrames hgood₂.toGoodFrames
              cases n with
              | zero => exact throw hgood₂ .outOfFuel
              | succ n => exact forRounds hboth hgood₂ hspelled hstands₂ hknown

end Bypass.Tandem

end LoxLang
