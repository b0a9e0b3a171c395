import LoxLang.Proofs.Eval.Counterparts

/-!
Actions in tandem. Two actions on the two sides of a bypass, the first in a frame and the second in its
counterpart, are in tandem if both have a result or both end with the same fault, with the same output
and on the two sides of a later bypass. The first may enter a frame that is bypassed.
-/

namespace LoxLang

open Scope

namespace Bypass

/-- One fault, which may tell different distances. -/
inductive SameFault : Fault → Fault → Prop
  | runtime {line : Nat} {cause cause' : RuntimeCause} (h : SameCause cause cause') :
    SameFault (.runtime ⟨line, cause⟩) (.runtime ⟨line, cause'⟩)
  | output (message : String) : SameFault (.output message) (.output message)
  | outOfFuel : SameFault .outOfFuel .outOfFuel

/-- Machines on the two sides, the first in the frame `a` and the second in its counterpart. -/
structure InStep (W : Bypass) (a : Address) (m m' : Machine) : Prop where
  left : m.heap = W.left
  right : m'.heap = W.right
  size : a < W.left.frames.size
  current : m.current = a
  current' : m'.current = W.image a
  output : m'.output = m.output
  answered : m'.answered = m.answered

variable {α α' β β' : Type}

inductive Outcomes (F : Knowledge) (W : Bypass) (a : Address) (R : Bypass → α → α' → Prop) :
    EStateM.Result Fault Machine α → EStateM.Result Fault Machine α' → Prop
  | ok {W' : Bypass} {n n' : Machine} {v : α} {v' : α'} (hle : W.Le W') (hgood : W'.Good F)
    (hstep : W'.InStep a n n') (hv : R W' v v') : Outcomes F W a R (.ok v n) (.ok v' n')
  | error {W' : Bypass} {n n' : Machine} {f f' : Fault} (hle : W.Le W') (hgood : W'.Good F)
    (hstep : W'.InStep a n n') (hf : SameFault f f') : Outcomes F W a R (.error f n) (.error f' n')

def Tandem (F : Knowledge) (W : Bypass) (a : Address) (x : Eval α) (x' : Eval α')
    (R : Bypass → α → α' → Prop) : Prop :=
  ∀ m m', W.InStep a m m' → Outcomes F W a R (x m) (x' m')

/-- Machines that differ in their current frames are in step there. -/
theorem InStep.inFrame {W : Bypass} {a b : Address} {m m' : Machine} (h : W.InStep a m m')
    (hb : b < W.left.frames.size) :
    W.InStep b { m with current := b } { m' with current := W.image b } :=
  { h with size := hb, current := rfl, current' := rfl }

theorem InStep.change {W W' : Bypass} {a : Address} {m m' : Machine} {change change' : Heap → Heap}
    (h : W.InStep a m m') (hle : W.Le W') (hleft : change W.left = W'.left)
    (hright : change' W.right = W'.right) :
    W'.InStep a { m with heap := change m.heap } { m' with heap := change' m'.heap } where
  left := (congrArg change h.left).trans hleft
  right := (congrArg change' h.right).trans hright
  size := Nat.lt_of_lt_of_le h.size hle.frames
  current := h.current
  current' := h.current'.trans (hle.image a h.size).symm
  output := h.output
  answered := h.answered

/-- The frame of an action is the one that it was in, in any later bypass. -/
theorem InStep.leave {W W' : Bypass} {a b : Address} {m m' n n' : Machine} (hle : W.Le W')
    (h : W.InStep a m m') (h' : W'.InStep b n n') :
    W'.InStep a { n with current := m.current } { n' with current := m'.current } where
  left := h'.left
  right := h'.right
  size := Nat.lt_of_lt_of_le h.size hle.frames
  current := h.current
  current' := h.current'.trans (hle.image a h.size).symm
  output := h'.output
  answered := h'.answered

namespace Tandem

variable {F : Knowledge} {W W' : Bypass} {a b : Address} {line : Nat} {x : Eval α} {x' : Eval α'}
  {R R' : Bypass → α → α' → Prop} {S : Bypass → β → β' → Prop}

/-! ### Sequencing -/

theorem pure {v : α} {v' : α'} (hgood : W.Good F) (hv : R W v v') :
    Tandem F W a (pure v) (pure v') R :=
  fun _ _ hstep => .ok (.refl W) hgood hstep hv

theorem throw {f f' : Fault} (hgood : W.Good F) (hf : SameFault f f') :
    Tandem F W a (throw f) (throw f') R :=
  fun _ _ hstep => .error (.refl W) hgood hstep hf

theorem fail (hgood : W.Good F) (cause : RuntimeCause) :
    Tandem F W a (Eval.fail line cause) (Eval.fail line cause) R :=
  throw hgood (.runtime (.same cause))

theorem bind {f : α → Eval β} {f' : α' → Eval β'} (hx : Tandem F W a x x' R)
    (hf : ∀ W', W.Le W' → W'.Good F → ∀ v v', R W' v v' → Tandem F W' a (f v) (f' v') S) :
    Tandem F W a (x >>= f) (x' >>= f') S := by
  intro m m' hstep
  have hout := hx m m' hstep
  change Outcomes F W a S (EStateM.bind x f m) (EStateM.bind x' f' m')
  unfold EStateM.bind
  generalize x m = r at hout
  generalize x' m' = r' at hout
  cases hout with
  | error hle hgood hstep hfault => exact .error hle hgood hstep hfault
  | @ok W₁ n n' v v' hle hgood hstep hv =>
      have hout := hf W₁ hle hgood v v' hv n n' hstep
      dsimp only
      generalize f v n = r at hout
      generalize f' v' n' = r' at hout
      cases hout with
      | error hle' hgood' hstep' hfault => exact .error (hle.trans hle') hgood' hstep' hfault
      | ok hle' hgood' hstep' hv' => exact .ok (hle.trans hle') hgood' hstep' hv'

/-- What the results of an action satisfy may be weakened. -/
theorem mono (hx : Tandem F W a x x' R)
    (hR : ∀ W', W.Le W' → W'.Good F → ∀ v v', R W' v v' → R' W' v v') : Tandem F W a x x' R' := by
  intro m m' hstep
  have hout := hx m m' hstep
  generalize x m = r at hout
  generalize x' m' = r' at hout
  cases hout with
  | error hle hgood hstep hfault => exact .error hle hgood hstep hfault
  | ok hle hgood hstep hv => exact .ok hle hgood hstep (hR _ hle hgood _ _ hv)

theorem map {f : α → β} {f' : α' → β'} (hx : Tandem F W a x x' R)
    (hf : ∀ W', W.Le W' → W'.Good F → ∀ v v', R W' v v' → S W' (f v) (f' v')) :
    Tandem F W a (f <$> x) (f' <$> x') S := by
  rw [map_eq_pure_bind, map_eq_pure_bind]
  exact hx.bind fun W' hle hgood v v' hv => .pure hgood (hf W' hle hgood v v' hv)

/-! ### Reading the machine -/

theorem bind_get {f : Machine → Eval β} {f' : Machine → Eval β'}
    (hf : ∀ m m', W.InStep a m m' → Tandem F W a (f m) (f' m') S) :
    Tandem F W a (get >>= f) (get >>= f') S :=
  fun m m' hstep => hf m m' hstep m m' hstep

theorem bind_getHeap {f : Heap → Eval β} {f' : Heap → Eval β'}
    (hf : Tandem F W a (f W.left) (f' W.right) S) :
    Tandem F W a (Eval.getHeap >>= f) (Eval.getHeap >>= f') S := by
  intro m m' hstep
  have hout := hf m m' hstep
  rw [← hstep.left, ← hstep.right] at hout
  exact hout

theorem bind_getCurrent {f : Address → Eval β} {f' : Address → Eval β'}
    (hf : Tandem F W a (f a) (f' (W.image a)) S) :
    Tandem F W a (Eval.getCurrent >>= f) (Eval.getCurrent >>= f') S := by
  intro m m' hstep
  have hout := hf m m' hstep
  rw [← hstep.current'] at hout
  rw [← hstep.current] at hout ⊢
  exact hout

/-- Host functions are called by machines that have called as many. -/
theorem bind_consult {f : Sight → Eval β} {f' : Sight → Eval β'}
    (hf : ∀ n, Tandem F W a (f ⟨W.left, n⟩) (f' ⟨W.right, n⟩) S) :
    Tandem F W a (Eval.consult >>= f) (Eval.consult >>= f') S := by
  intro m m' hstep
  have hcounted : W.InStep a { m with answered := m.answered + 1 }
      { m' with answered := m.answered + 1 } := { hstep with answered := rfl }
  have hout := hf m.answered _ _ hcounted
  rw [← hstep.left, ← hstep.right] at hout
  change Outcomes F W a S (f ⟨m.heap, m.answered⟩ _) (f' ⟨m'.heap, m'.answered⟩ _)
  rw [hstep.answered]
  exact hout

/-! ### Changing the machine -/

/-- A change to the two heaps that leads to a later bypass. -/
theorem changeHeap {change change' : Heap → Heap} (hle : W.Le W') (hgood : W'.Good F)
    (hleft : change W.left = W'.left) (hright : change' W.right = W'.right) :
    Tandem F W a (Eval.changeHeap change) (Eval.changeHeap change') fun W₁ _ _ => W₁ = W' := by
  intro m m' hstep
  exact .ok hle hgood (hstep.change hle hleft hright) rfl

theorem allocate {free : Heap → Address} {add add' : Heap → Heap} (hle : W.Le W')
    (hgood : W'.Good F) (hleft : add W.left = W'.left) (hright : add' W.right = W'.right) :
    Tandem F W a (Eval.allocate free add) (Eval.allocate free add')
      fun W₁ b b' => W₁ = W' ∧ b = free W.left ∧ b' = free W.right := by
  intro m m' hstep
  have hb : free m.heap = free W.left := congrArg free hstep.left
  have hb' : free m'.heap = free W.right := congrArg free hstep.right
  exact .ok hle hgood (hstep.change hle hleft hright) ⟨rfl, hb, hb'⟩

/-- A new frame on both sides. -/
theorem newFrame {o o' : Frame} (hgood : W.Good F) (hnew : W.FramesAround b o o')
    (hvalues : ∀ name v, o.bindings.find? name = some v → W.Valid F v) :
    Tandem F W a (Eval.newFrame o) (Eval.newFrame o') fun W' c c' =>
      W' = W.addFrame o o' ∧ c = W.left.frames.size ∧ c' = W'.image c := by
  refine (allocate (W.le_addFrame o o') (hgood.addFrame hnew hvalues) rfl rfl).mono ?_
  rintro W' - - c c' ⟨rfl, rfl, rfl⟩
  exact ⟨rfl, rfl, (if_pos rfl).symm⟩

theorem newFunction (hgood : W.Good F) (o o' : FunctionObject) :
    Tandem F W a (Eval.newFunction o) (Eval.newFunction o') fun W' f f' =>
      W' = W.addFunction o o' ∧ f = W.left.functions.size ∧ f' = f := by
  refine (allocate (le_addFunction hgood o o') (hgood.addFunction o o') rfl rfl).mono ?_
  rintro W' - - f f' ⟨rfl, rfl, rfl⟩
  exact ⟨rfl, rfl, hgood.functions⟩

theorem newClass {c : ClassObject} (hgood : W.Good F)
    (hmethods : ∀ name f, c.methods.find? name = some f → W.SameFunction F 1 f) :
    Tandem F W a (Eval.newClass c) (Eval.newClass c) fun _ b b' => b' = b := by
  refine (allocate (W.le_addClass c) (hgood.addClass hmethods) rfl rfl).mono ?_
  rintro W' - - b b' ⟨-, rfl, rfl⟩
  exact congrArg Array.size hgood.classes

theorem newInstance (hgood : W.Good F) (c : Address) :
    Tandem F W a (Eval.newInstance ⟨c, []⟩) (Eval.newInstance ⟨c, []⟩) fun W' b b' =>
      W' = W.addInstance ⟨c, []⟩ ∧ b' = b := by
  refine (allocate (W.le_addInstance _) (hgood.addInstance c) rfl rfl).mono ?_
  rintro W' - - b b' ⟨rfl, rfl, rfl⟩
  exact ⟨rfl, congrArg Array.size hgood.instances⟩

/-- An action in another frame, and in its counterpart. -/
theorem inFrame (hb : b < W.left.frames.size) (hx : Tandem F W b x x' R) :
    Tandem F W a (Eval.inFrame b x) (Eval.inFrame (W.image b) x') R := by
  intro m m' hstep
  have hout := hx _ _ (hstep.inFrame hb)
  unfold Eval.inFrame
  generalize x _ = r at hout
  generalize x' _ = r' at hout
  cases hout with
  | error hle hgood hin hfault => exact .error hle hgood (hstep.leave hle hin) hfault
  | ok hle hgood hin hv => exact .ok hle hgood (hstep.leave hle hin) hv

/-- On the first side an action runs in a new frame that is bypassed. -/
theorem enterBypassed {origin : Origin}
    (hx : Tandem F (W.addBypassed a ⟨[], some a, origin⟩) W.left.frames.size x x' R) :
    Tandem F W a
      (do let here ← Eval.getCurrent
          let frame ← Eval.newFrame ⟨[], some here, origin⟩
          Eval.inFrame frame x)
      x' R := by
  intro m m' hstep
  have hle := W.le_addBypassed a ⟨[], some a, origin⟩
  have hsize : W.left.frames.size < (W.addBypassed a ⟨[], some a, origin⟩).left.frames.size := by
    simp [Bypass.addBypassed]
  have himage : (W.addBypassed a ⟨[], some a, origin⟩).image W.left.frames.size = W.image a :=
    if_pos rfl
  generalize hW₁ : W.addBypassed a ⟨[], some a, origin⟩ = W₁ at hx hle hsize himage
  have hinside : W₁.InStep W.left.frames.size
      { m with heap := W₁.left, current := W.left.frames.size } m' := by
    constructor
    case left => rfl
    case right => rw [← hW₁]; exact hstep.right
    case size => exact hsize
    case current => rfl
    case current' => rw [himage, hstep.current']
    case output => exact hstep.output
    case answered => exact hstep.answered
  have hout := hx _ _ hinside
  have hrun : (do let here ← Eval.getCurrent
                  let frame ← Eval.newFrame ⟨[], some here, origin⟩
                  Eval.inFrame frame x) m =
      Eval.inFrame W.left.frames.size x { m with heap := W₁.left } := by
    obtain ⟨heap, current, output, answered⟩ := m
    obtain ⟨rfl, -, -, rfl, -, -, -⟩ := hstep
    rw [← hW₁]
    rfl
  rw [hrun, Eval.inFrame]
  have hleave : ∀ {W₂ : Bypass} {n n' : Machine}, W₁.Le W₂ → W₂.InStep W.left.frames.size n n' →
      W₂.InStep a { n with current := m.current } n' := by
    intro W₂ n n' hle' hin
    have hsame : W₂.image a = W.image a := (hle.trans hle').image a hstep.size
    constructor
    case left => exact hin.left
    case right => exact hin.right
    case size => exact Nat.lt_of_lt_of_le hstep.size (hle.trans hle').frames
    case current => exact hstep.current
    case current' => rw [hin.current', hle'.image _ hsize, himage, hsame]
    case output => exact hin.output
    case answered => exact hin.answered
  generalize x _ = r at hout
  generalize x' m' = r' at hout
  cases hout with
  | error hle' hgood hin hfault => exact .error (hle.trans hle') hgood (hleave hle' hin) hfault
  | ok hle' hgood hin hv => exact .ok (hle.trans hle') hgood (hleave hle' hin) hv

theorem write (hgood : W.Good F) (s : String) :
    Tandem F W a (Eval.write s) (Eval.write s) fun W' _ _ => W' = W := by
  intro m m' hstep
  unfold Eval.write
  by_cases hs : s.isEmpty = true
  · rw [if_pos hs]
    exact .ok (.refl W) hgood hstep rfl
  · rw [if_neg hs]
    simp only [Bind.bind, EStateM.bind, get, getThe, MonadStateOf.get, Eval.get_eq, hstep.output]
    cases m.output.refusal m.output.text with
    | some message => exact .error (.refl W) hgood hstep (.output message)
    | none =>
        refine .ok (.refl W) hgood ?_ rfl
        exact { hstep with output := congrArg (Output.append s) hstep.output }

theorem flush (hgood : W.Good F) :
    Tandem F W a Eval.flush Eval.flush fun W' _ _ => W' = W := by
  intro m m' hstep
  unfold Eval.flush
  simp only [Bind.bind, EStateM.bind, get, getThe, MonadStateOf.get, Eval.get_eq, hstep.output]
  cases m.output.flushRefusal with
  | some message => exact .error (.refl W) hgood hstep (.output message)
  | none => exact .ok (.refl W) hgood hstep rfl

end Tandem

end Bypass

end LoxLang
