import LoxLang.Eval.Run
import LoxLang.Proofs.Eval.World

/-!
Actions in lockstep. Two actions on the two heaps of a world are in lockstep if both have a result, with
the same output and in a later world, or both end with the same kind of fault. The faults that only a
mistake in the static walk could cause are ruled out, save for one: a variable may be missing while its
own initializer runs.

Every statement has a way out: `Lockstep F` claims its conclusion unless `F` holds of a world that is
passed on the way. It serves to show `F` of the world in which an action is stopped at a chosen place.
-/

namespace LoxLang

open Scope

/-- The causes of faults that the static walk is there to rule out. -/
def RuntimeCause.isInternal : RuntimeCause → Bool
  | .missingAtDistance _ _ | .chainTooShort _ | .unresolvedSuper | .malformedSuper => true
  | _ => false

/-- A name is bound at a distance where it is declared but not ready. -/
def Scope.Layers.Early (Γ : Layers) (name : String) (d : Nat) : Prop :=
  Γ.distance? name = some d ∧ ∃ l, Γ[d]? = some l ∧ l.names.find? name = some false

section

variable (K : Layers → Reference → Reference → Prop) (L : Nat → Nat → Prop)

inductive FaultsAlike : Fault → Fault → Prop
  | output (message : String) : FaultsAlike (.output message) (.output message)
  | outOfFuel : FaultsAlike .outOfFuel .outOfFuel
  | runtime {line line' : Nat} {cause : RuntimeCause} (hline : L line line')
    (hcause : cause.isInternal = false) :
    FaultsAlike (.runtime ⟨line, cause⟩) (.runtime ⟨line', cause⟩)
  | missing {Γ : Layers} {ref ref' : Reference} {d : Nat} (href : K Γ ref ref')
    (hline : L ref.name.line ref'.name.line) (hearly : Γ.Early ref.name.lexeme d) :
    FaultsAlike (.runtime ⟨ref.name.line, .missingAtDistance ref.name.lexeme d⟩)
      (.runtime ⟨ref'.name.line, .missingAtDistance ref'.name.lexeme d⟩)

theorem Eval.get_eq (m : Machine) :
    (EStateM.get m : EStateM.Result Fault Machine Machine) = .ok m m :=
  rfl

/-- Two machines with the heaps of a world, in the same frame, with the same output and as many answers
of host functions. -/
structure World.InStep (W : World) (a : Address) (m m' : Machine) : Prop where
  left : m.heap = W.left
  right : m'.heap = W.right
  current : m.current = a
  current' : m'.current = a
  output : m'.output = m.output
  answered : m'.answered = m.answered

variable {α α' β β' : Type}

inductive Outcomes (limit : Nat) (W : World) (a : Address) (R : World → α → α' → Prop) :
    EStateM.Result Fault Machine α → EStateM.Result Fault Machine α' → Prop
  | ok {W' : World} {n n' : Machine} {v : α} {v' : α'} (hle : W.Le limit W') (hgood : W'.Good K L)
    (hstep : W'.InStep a n n') (hv : R W' v v') : Outcomes limit W a R (.ok v n) (.ok v' n')
  | error {W' : World} {n n' : Machine} {f f' : Fault} (hle : W.Le limit W')
    (hgood : W'.Good K L) (hstep : W'.InStep a n n') (hf : FaultsAlike K L f f') :
    Outcomes limit W a R (.error f n) (.error f' n')

/-- Some later world satisfies `F`. -/
def World.Passes (F : World → Prop) (limit : Nat) (W : World) : Prop :=
  ∃ W', W.Le limit W' ∧ F W'

/-- Two actions that begin in a frame of a world go on in lockstep, unless they pass a world that
satisfies `F`. -/
def Lockstep (F : World → Prop) (limit : Nat) (W : World) (a : Address) (x : Eval α) (x' : Eval α')
    (R : World → α → α' → Prop) : Prop :=
  ∀ m m', W.InStep a m m' → W.Passes F limit ∨ Outcomes K L limit W a R (x m) (x' m')

end

namespace Lockstep

variable {K : Layers → Reference → Reference → Prop} {L : Nat → Nat → Prop} {F : World → Prop}
  {α α' β β' : Type} {limit limit' : Nat} {W W' : World} {a : Address}
  {x : Eval α} {x' : Eval α'} {R : World → α → α' → Prop} {S : World → β → β' → Prop}

theorem pure {v : α} {v' : α'} (hgood : W.Good K L) (hv : R W v v') :
    Lockstep K L F limit W a (pure v) (pure v') R :=
  fun _ _ hstep => .inr (.ok (.refl limit W) hgood hstep hv)

theorem fail {line line' : Nat} {cause : RuntimeCause} (hgood : W.Good K L) (hline : L line line')
    (hcause : cause.isInternal = false) :
    Lockstep K L F limit W a (Eval.fail line cause) (Eval.fail line' cause) R :=
  fun _ _ hstep => .inr (.error (.refl limit W) hgood hstep (.runtime hline hcause))

theorem bind {f : α → Eval β} {f' : α' → Eval β'} (hx : Lockstep K L F limit W a x x' R)
    (hf : ∀ W', W.Le limit W' → W'.Good K L → ∀ v v', R W' v v' →
      Lockstep K L F limit W' a (f v) (f' v') S) :
    Lockstep K L F limit W a (x >>= f) (x' >>= f') S := by
  intro m m' hstep
  obtain hpass | hout := hx m m' hstep
  · exact .inl hpass
  change W.Passes F limit ∨ Outcomes K L limit W a S (EStateM.bind x f m) (EStateM.bind x' f' m')
  unfold EStateM.bind
  generalize x m = r at hout
  generalize x' m' = r' at hout
  cases hout with
  | error hle hgood hstep hfault => exact .inr (.error hle hgood hstep hfault)
  | @ok W₁ n n' v v' hle hgood hstep hv =>
      obtain ⟨W₂, hle', hF⟩ | hout := hf W₁ hle hgood v v' hv n n' hstep
      · exact .inl ⟨W₂, hle.trans hle', hF⟩
      refine .inr ?_
      dsimp only
      generalize f v n = r at hout
      generalize f' v' n' = r' at hout
      cases hout with
      | error hle' hgood' hstep' hfault => exact .error (hle.trans hle') hgood' hstep' hfault
      | ok hle' hgood' hstep' hv' => exact .ok (hle.trans hle') hgood' hstep' hv'

/-- What the results of an action satisfy may be weakened. -/
theorem mono {R' : World → α → α' → Prop} (hx : Lockstep K L F limit W a x x' R)
    (hR : ∀ W', W.Le limit W' → W'.Good K L → ∀ v v', R W' v v' → R' W' v v') :
    Lockstep K L F limit W a x x' R' := by
  intro m m' hstep
  obtain hpass | hout := hx m m' hstep
  · exact .inl hpass
  refine .inr ?_
  generalize x m = r at hout
  generalize x' m' = r' at hout
  cases hout with
  | error hle hgood hstep hfault => exact .error hle hgood hstep hfault
  | ok hle hgood hstep hv => exact .ok hle hgood hstep (hR _ hle hgood _ _ hv)

/-- What is closed below a limit is closed below a lower one, and the later world may be compared at
the higher one. -/
theorem weaken (hx : Lockstep K L F limit W a x x' R) (hlimit : limit' ≤ limit) :
    Lockstep K L F limit' W a x x' fun W' v v' => W.Le limit W' ∧ R W' v v' := by
  intro m m' hstep
  obtain ⟨W', hle, hF⟩ | hout := hx m m' hstep
  · exact .inl ⟨W', hle.weaken hlimit, hF⟩
  refine .inr ?_
  generalize x m = r at hout
  generalize x' m' = r' at hout
  cases hout with
  | error hle hgood hstep hfault => exact .error (hle.weaken hlimit) hgood hstep hfault
  | ok hle hgood hstep hv => exact .ok (hle.weaken hlimit) hgood hstep ⟨hle, hv⟩

theorem map {f : α → β} {f' : α' → β'} (hx : Lockstep K L F limit W a x x' R)
    (hf : ∀ W', W.Le limit W' → W'.Good K L → ∀ v v', R W' v v' → S W' (f v) (f' v')) :
    Lockstep K L F limit W a (f <$> x) (f' <$> x') S := by
  rw [map_eq_pure_bind, map_eq_pure_bind]
  exact hx.bind fun W' hle hgood v v' hv => .pure hgood (hf W' hle hgood v v' hv)

/-! ### Reading the machine -/

theorem bind_get {f : Machine → Eval β} {f' : Machine → Eval β'}
    (hf : ∀ m m', W.InStep a m m' → Lockstep K L F limit W a (f m) (f' m') S) :
    Lockstep K L F limit W a (get >>= f) (get >>= f') S :=
  fun m m' hstep => hf m m' hstep m m' hstep

theorem bind_getHeap {f : Heap → Eval β} {f' : Heap → Eval β'}
    (hf : Lockstep K L F limit W a (f W.left) (f' W.right) S) :
    Lockstep K L F limit W a (Eval.getHeap >>= f) (Eval.getHeap >>= f') S := by
  intro m m' hstep
  have hout := hf m m' hstep
  rw [← hstep.left, ← hstep.right] at hout
  exact hout

theorem bind_getCurrent {f : Address → Eval β} {f' : Address → Eval β'}
    (hf : Lockstep K L F limit W a (f a) (f' a) S) :
    Lockstep K L F limit W a (Eval.getCurrent >>= f) (Eval.getCurrent >>= f') S := by
  intro m m' hstep
  have hout := hf m m' hstep
  change W.Passes F limit ∨ Outcomes K L limit W a S (f m.current m) (f' m'.current m')
  rw [hstep.current, hstep.current']
  exact hout

/-- Host functions are called by machines that have called as many. -/
theorem bind_consult {f : Sight → Eval β} {f' : Sight → Eval β'}
    (hf : ∀ n, Lockstep K L F limit W a (f ⟨W.left, n⟩) (f' ⟨W.right, n⟩) S) :
    Lockstep K L F limit W a (Eval.consult >>= f) (Eval.consult >>= f') S := by
  intro m m' hstep
  have hcounted : W.InStep a { m with answered := m.answered + 1 }
      { m' with answered := m.answered + 1 } := { hstep with answered := rfl }
  have hout := hf m.answered _ _ hcounted
  rw [← hstep.left, ← hstep.right] at hout
  change W.Passes F limit ∨ Outcomes K L limit W a S (f ⟨m.heap, m.answered⟩ _)
    (f' ⟨m'.heap, m'.answered⟩ _)
  rw [hstep.answered]
  exact hout

/-! ### Changing the machine -/

/-- A change to the two heaps that leads to a later world. -/
theorem changeHeap {change change' : Heap → Heap} (hle : W.Le limit W') (hgood : W'.Good K L)
    (hleft : change W.left = W'.left) (hright : change' W.right = W'.right) :
    Lockstep K L F limit W a (Eval.changeHeap change) (Eval.changeHeap change')
      fun W₁ _ _ => W₁ = W' := by
  intro m m' hstep
  refine .inr (.ok hle hgood { hstep with left := ?_, right := ?_ } rfl)
  · exact (congrArg change hstep.left).trans hleft
  · exact (congrArg change' hstep.right).trans hright

theorem allocate {free : Heap → Address} {add add' : Heap → Heap} (hle : W.Le limit W')
    (hgood : W'.Good K L) (hleft : add W.left = W'.left) (hright : add' W.right = W'.right)
    (hfree : free W.right = free W.left) :
    Lockstep K L F limit W a (Eval.allocate free add) (Eval.allocate free add')
      fun W₁ b b' => W₁ = W' ∧ b = free W.left ∧ b' = b := by
  intro m m' hstep
  refine .inr (.ok hle hgood { hstep with left := ?_, right := ?_ } ⟨rfl, ?_, ?_⟩)
  · exact (congrArg add hstep.left).trans hleft
  · exact (congrArg add' hstep.right).trans hright
  · exact congrArg free hstep.left
  · rw [hstep.left, hstep.right, hfree]

theorem newFrame {f f' : Frame} {ρ : Equiv.Perm String} (hgood : W.Good K L)
    (hnew : W.NewFrame K L f f' ρ) :
    Lockstep K L F limit W a (Eval.newFrame f) (Eval.newFrame f')
      fun W' b b' => W' = W.addFrame f f' ρ ∧ b = W.left.frames.size ∧ b' = b :=
  allocate (W.le_addFrame f f' ρ) (hgood.addFrame hnew) rfl rfl hgood.frames_size

theorem newFunction {f f' : FunctionObject} (hgood : W.Good K L) (hclosure : f'.closure = f.closure)
    (hinit : f'.isInitializer = f.isInitializer) :
    Lockstep K L F limit W a (Eval.newFunction f) (Eval.newFunction f')
      fun W' b b' => W' = W.addFunction f f' ∧ b = W.left.functions.size ∧ b' = b :=
  allocate (W.le_addFunction hgood.functions_size f f') (hgood.addFunction hclosure hinit) rfl rfl
    hgood.functions_size

theorem newClass {c : ClassObject} (hgood : W.Good K L)
    (hup : ∀ up, c.superclass = some up → up < W.left.classes.size)
    (hmethods : ∀ name f, c.methods.find? name = some f → W.Method K L f) :
    Lockstep K L F limit W a (Eval.newClass c) (Eval.newClass c)
      fun W' b b' => W' = W.addClass c ∧ b = W.left.classes.size ∧ b' = b :=
  allocate (W.le_addClass c) (hgood.addClass hup hmethods) rfl rfl
    (congrArg Array.size hgood.classes)

theorem newInstance {c : Address} (hgood : W.Good K L) (hc : c < W.left.classes.size) :
    Lockstep K L F limit W a (Eval.newInstance ⟨c, []⟩) (Eval.newInstance ⟨c, []⟩)
      fun W' b b' => W' = W.addInstance c ∧ b = W.left.instances.size ∧ b' = b :=
  allocate (W.le_addInstance c) (hgood.addInstance hc) rfl rfl
    (congrArg Array.size hgood.instances)

/-- An action in another frame. -/
theorem inFrame {b : Address} (hx : Lockstep K L F limit W b x x' R) :
    Lockstep K L F limit W a (Eval.inFrame b x) (Eval.inFrame b x') R := by
  intro m m' hstep
  have hinside : W.InStep b { m with current := b } { m' with current := b } :=
    { hstep with current := rfl, current' := rfl }
  obtain hpass | hout := hx _ _ hinside
  · exact .inl hpass
  refine .inr ?_
  unfold Eval.inFrame
  generalize x _ = r at hout
  generalize x' _ = r' at hout
  cases hout with
  | error hle hgood hin hfault =>
      exact .error hle hgood { hin with current := hstep.current, current' := hstep.current' } hfault
  | ok hle hgood hin hv =>
      exact .ok hle hgood { hin with current := hstep.current, current' := hstep.current' } hv

theorem write (hgood : W.Good K L) (s : String) :
    Lockstep K L F limit W a (Eval.write s) (Eval.write s) fun W' _ _ => W' = W := by
  intro m m' hstep
  refine .inr ?_
  unfold Eval.write
  by_cases hs : s.isEmpty = true
  · rw [if_pos hs]
    exact .ok (.refl limit W) hgood hstep rfl
  · rw [if_neg hs]
    simp only [Bind.bind, EStateM.bind, get, getThe, MonadStateOf.get, Eval.get_eq, hstep.output]
    cases m.output.refusal m.output.text with
    | some message => exact .error (.refl limit W) hgood hstep (.output message)
    | none =>
        refine .ok (.refl limit W) hgood ?_ rfl
        exact { hstep with output := congrArg (Output.append s) hstep.output }

theorem flush (hgood : W.Good K L) :
    Lockstep K L F limit W a Eval.flush Eval.flush fun W' _ _ => W' = W := by
  intro m m' hstep
  refine .inr ?_
  unfold Eval.flush
  simp only [Bind.bind, EStateM.bind, get, getThe, MonadStateOf.get, Eval.get_eq, hstep.output]
  cases m.output.flushRefusal with
  | some message => exact .error (.refl limit W) hgood hstep (.output message)
  | none => exact .ok (.refl limit W) hgood hstep rfl

end Lockstep

end LoxLang
