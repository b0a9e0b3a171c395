/-!
Actions that commute with maps. Where errors, states and results are mapped to others, a second
action may do with a mapped state what the first one does with the state: its outcome is the outcome
of the first one, mapped. Actions that are put together from such pairs are such pairs again.
-/

namespace LoxLang

section

variable {ε σ α β γ τ : Type}

/-- An outcome with its error, its state and its result mapped. -/
def mapOutcome (onError : ε → ε) (onState : σ → σ) (f : α → β) :
    EStateM.Result ε σ α → EStateM.Result ε σ β
  | .ok a s => .ok (f a) (onState s)
  | .error e s => .error (onError e) (onState s)

/-- The second action does with a mapped state what the first one does with the state. -/
def Commutes (onError : ε → ε) (onState : σ → σ) (f : α → β) (x : EStateM ε σ α)
    (y : EStateM ε σ β) : Prop :=
  ∀ s, y (onState s) = mapOutcome onError onState f (x s)

namespace Commutes

variable {onError : ε → ε} {onState : σ → σ} {f : α → β} {g : γ → τ} {x x' : EStateM ε σ α}
  {y y' : EStateM ε σ β}

theorem pure {a : α} {b : β} (h : b = f a) : Commutes onError onState f (pure a) (pure b) := by
  subst h
  exact fun _ => rfl

theorem throw {e e' : ε} (h : e' = onError e) :
    Commutes onError onState f (throw e) (throw e') := by
  subst h
  exact fun _ => rfl

theorem get : Commutes onError onState onState get get :=
  fun _ => rfl

theorem modify {change change' : σ → σ} (h : ∀ s, change' (onState s) = onState (change s)) :
    Commutes onError onState id (modify change) (modify change') :=
  fun s => congrArg (EStateM.Result.ok ()) (h s)

theorem bind {k : α → EStateM ε σ γ} {l : β → EStateM ε σ τ}
    (hx : Commutes onError onState f x y) (hk : ∀ a, Commutes onError onState g (k a) (l (f a))) :
    Commutes onError onState g (x >>= k) (y >>= l) := by
  intro s
  change EStateM.bind y l (onState s) = mapOutcome onError onState g (EStateM.bind x k s)
  unfold EStateM.bind
  rw [hx s]
  cases x s with
  | ok a t => exact hk a t
  | error e t => rfl

theorem map {p : α → γ} {q : β → τ} (hx : Commutes onError onState f x y)
    (h : ∀ a, q (f a) = g (p a)) : Commutes onError onState g (p <$> x) (q <$> y) := by
  rw [map_eq_pure_bind, map_eq_pure_bind]
  exact hx.bind fun a => .pure (h a)

theorem some (hx : Commutes onError onState f x y) :
    Commutes onError onState (Option.map f) (Option.some <$> x) (Option.some <$> y) :=
  hx.map fun _ => rfl

theorem ite {c : Prop} [Decidable c] (hx : Commutes onError onState f x y)
    (hx' : Commutes onError onState f x' y') :
    Commutes onError onState f (if c then x else x') (if c then y else y') := by
  split
  · exact hx
  · exact hx'

end Commutes

end

end LoxLang
