import LoxLang.Proofs.Store.Sound

/-!
Activations of methods. A call of a bound method opens a frame right inside of the one that holds the
receiver. Blocks in the body, and functions that are made there, run in frames that hang on this one, and
such functions do so whenever they are called. From any of these frames outwards, the first frame of a
receiver is that of the activation, and the next one behind it is what the method closes over: the frame
of the superclass, if the class of the method has one.
-/

namespace LoxLang

open Scope

namespace Heap

/-- A frame `x` was opened for a call of `f`, a copy of the method `m` of the class `c` that is bound to
the object `o`. -/
structure Activation (h : Heap) (x f c m o : Address) : Prop where
  bound : h.Bound f c m o
  origin : (h.frame x).origin = .call (h.function m).decl
  enclosing : (h.frame x).enclosing = some (h.function f).closure

/-- A frame belongs to an activation: it is the frame of the call, or code runs in it and it is right
inside of a frame that belongs to the activation. -/
inductive Within (h : Heap) (x : Address) : Address → Prop
  | call : Within h x x
  | inner {a b : Address} (hcode : h.RunsCode a) (hlink : (h.frame a).enclosing = some b)
    (hb : Within h x b) : Within h x a

/-- A frame is that of a receiver. -/
def HoldsReceiver (h : Heap) (a : Address) : Bool :=
  (h.frame a).origin.isReceiver

/-- A frame is that of a superclass. -/
def HoldsSuperclass (h : Heap) (a : Address) : Bool :=
  (h.frame a).origin.isSuperclass

variable {law : Law} {h h' : Heap} {a b x f c m o : Address} {k k' : ClassKind}

/-! ### Later heaps -/

theorem Bound.method_lt (hsound : h.Sound law) (hf : h.Bound f c m o) : m < h.functions.size := by
  obtain ⟨_, hm⟩ := hf.method.method hsound
  exact hm.size

theorem Activation.size (hx : h.Activation x f c m o) : x < h.frames.size := by
  refine Nat.lt_of_not_le fun hle => ?_
  have horigin := hx.origin
  rw [frame_of_le hle] at horigin
  cases horigin

theorem Activation.mono (hsound : h.Sound law) (hthis : ¬law.Writes receiverName)
    (hle : h.Grows law h') (hx : h.Activation x f c m o) : h'.Activation x f c m o where
  bound := hx.bound.mono hsound hthis hle
  origin := by
    rw [hle.origin x hx.size, hle.function m (hx.bound.method_lt hsound), hx.origin]
  enclosing := by
    rw [hle.enclosing x hx.size, hle.function f hx.bound.size, hx.enclosing]

theorem Within.mono (hle : h.Grows law h') (ha : h.Within x a) : h'.Within x a := by
  induction ha with
  | call => exact .call
  | inner hcode hlink _ ih =>
      exact .inner (hcode.mono hle) ((hle.enclosing _ hcode.size).trans hlink) ih

/-! ### Calls -/

/-- A call of a bound method opens an activation. -/
theorem Bound.activation (hsound : h.Sound law) (hthis : ¬law.Writes receiverName)
    (hf : h.Bound f c m o) (arguments : Bindings Value) :
    (h.opened f arguments).Activation h.frames.size f c m o where
  bound := hf.mono hsound hthis (h.grows_opened law f arguments)
  origin := by
    rw [(h.grows_opened law f arguments).function m (hf.method_lt hsound), ← hf.decl, opened,
      addFrame_new]
  enclosing := by
    rw [(h.grows_opened law f arguments).function f hf.size, opened, addFrame_new]

/-- A call of a function that was made in an activation belongs to the activation. -/
theorem Within.opened (hx : h.Within x (h.function f).closure) (arguments : Bindings Value) :
    (h.opened f arguments).Within x h.frames.size := by
  refine .inner (b := (h.function f).closure) (h.runsCode_new _ rfl rfl) ?_
    (hx.mono (h.grows_opened .any f arguments))
  rw [Heap.opened, addFrame_new]

/-! ### Kinds of classes -/

theorem RunsCode.not_around_receiver (ha : h.RunsCode a) :
    ¬(h.frame a).origin.isReceiver = true := by
  rw [ha.receiver]
  exact Bool.false_ne_true

/-- What is around a frame is one kind of class. -/
theorem Around.unique (ha : h.Around a k) (ha' : h.Around a k') : k = k' := by
  induction ha generalizing k' with
  | globals hcode hlink =>
      cases ha' with
      | globals => rfl
      | code _ hlink' => cases hlink.symm.trans hlink'
      | base hreceiver | derived hreceiver => exact absurd hreceiver hcode.not_around_receiver
  | code hcode hlink _ ih =>
      cases ha' with
      | globals _ hlink' => cases hlink.symm.trans hlink'
      | code _ hlink' hb' =>
          cases hlink.symm.trans hlink'
          exact ih hb'
      | base hreceiver | derived hreceiver => exact absurd hreceiver hcode.not_around_receiver
  | base hreceiver hlink hb =>
      cases ha' with
      | globals hcode | code hcode => exact absurd hreceiver hcode.not_around_receiver
      | base => rfl
      | derived _ hlink' hb' =>
          cases hlink.symm.trans hlink'
          cases hb.superclass.symm.trans hb'
  | derived hreceiver hlink hb =>
      cases ha' with
      | globals hcode | code hcode => exact absurd hreceiver hcode.not_around_receiver
      | base _ hlink' hb' =>
          cases hlink.symm.trans hlink'
          cases hb'.superclass.symm.trans hb
      | derived => rfl

theorem Within.around (hx : h.Around x k) (ha : h.Within x a) : h.Around a k := by
  induction ha with
  | call => exact hx
  | inner hcode hlink _ ih => exact .code hcode hlink ih

theorem Activation.runsCode (hx : h.Activation x f c m o) : h.RunsCode x := by
  refine ⟨hx.size, ?_, ?_⟩
  · rw [hx.origin]
    rfl
  · rw [hx.origin]
    rfl

/-- A method runs inside of the class that declares it. -/
theorem Activation.around (hsound : h.Sound law) (hx : h.Activation x f c m o) :
    h.Around x (.inside (h.classObject c).superclass) := by
  obtain ⟨_, hm⟩ := hx.bound.method.method hsound
  exact .code hx.runsCode hx.enclosing (hm.closure.around hx.bound.receiver hx.bound.link)

/-- Where a class is around, there is an activation of one of its methods. -/
theorem Sound.activation (hsound : h.Sound law) (hthis : ¬law.Writes receiverName)
    (hcode : h.RunsCode a) (ha : h.Around a k) (hk : k ≠ .none) :
    ∃ x f c m o, h.Activation x f c m o ∧ h.Within x a := by
  induction ha with
  | globals => exact absurd rfl hk
  | base hreceiver | derived hreceiver => exact absurd hreceiver hcode.not_around_receiver
  | @code a b k hcode hlink hb ih =>
      cases hreceiver : (h.frame b).origin.isReceiver with
      | false =>
          have hcodeb : h.RunsCode b := ⟨hb.size, hreceiver, hb.not_superclass⟩
          obtain ⟨x, f, c, m, o, hx, hwithin⟩ := ih hcodeb hk
          exact ⟨x, f, c, m, o, hx, .inner hcode hlink hwithin⟩
      | true =>
          -- Of the frames that hang on others, only those of calls hang on a receiver.
          cases hsound.placed a hcode.size with
          | globals _ _ hnone => cases hnone.symm.trans hlink
          | block _ hlink' _ hcode' =>
              cases hlink.symm.trans hlink'
              cases hcode'.receiver.symm.trans hreceiver
          | superclass horigin =>
              have hno := hcode.superclass
              rw [horigin] at hno
              cases hno
          | receiver horigin =>
              have hno := hcode.receiver
              rw [horigin] at hno
              cases hno
          | @call d b' f horigin hlink' _ _ hf hdecl hclosure =>
              cases hlink.symm.trans hlink'
              obtain ⟨c, m, o, hbound⟩ := (hsound.functions f hf).bound hthis (hclosure ▸ hreceiver)
              refine ⟨a, f, c, m, o, ⟨hbound, ?_, ?_⟩, .call⟩
              · rw [horigin, ← hdecl, hbound.decl]
              · rw [hlink, hclosure]

/-! ### Chains -/

/-- The frames from one of an activation outwards: first such as code runs in, then those around the
call. -/
theorem Within.chain (hlinked : h.Linked) (ha : h.Within x a) :
    ∃ inner, h.chain a = inner ++ h.chain x ∧ ∀ b ∈ inner, h.RunsCode b := by
  induction ha with
  | call => exact ⟨[], rfl, nofun⟩
  | @inner a b hcode hlink _ ih =>
      obtain ⟨inner, hchain, hall⟩ := ih
      refine ⟨a :: inner, ?_, List.forall_mem_cons.mpr ⟨hcode, hall⟩⟩
      rw [chain_eq hlinked, hlink]
      exact congrArg (a :: ·) hchain

theorem Activation.chain (hlinked : h.Linked) (hx : h.Activation x f c m o) :
    h.chain x = x :: (h.function f).closure :: h.chain (h.function m).closure := by
  rw [chain_eq hlinked, hx.enclosing]
  dsimp only
  rw [chain_eq hlinked, hx.bound.link]

theorem findIdx?_behind {α : Type} {p : α → Bool} {inner rest : List α} {b : α}
    (hinner : ∀ a ∈ inner, p a = false) (hb : p b = true) :
    (inner ++ b :: rest).findIdx? p = some inner.length := by
  rw [List.findIdx?_append, List.findIdx?_eq_none_iff.mpr hinner, List.findIdx?_cons, hb]
  simp

/-- From a frame of an activation outwards, the nearest receiver is that of the activation, and the
nearest superclass is the one that the class of the method was made with. -/
theorem Activation.found (hsound : h.Sound law) (hx : h.Activation x f c m o) (ha : h.Within x a) :
    ∃ d, (h.chain a).findIdx? h.HoldsReceiver = some d ∧
      h.getAt a d receiverName = .ok (.object o) ∧
      ∀ s, (h.classObject c).superclass = some s → ¬law.Writes superclassName →
        (h.chain a).findIdx? h.HoldsSuperclass = some (d + 1) ∧
          h.getAt a (d + 1) superclassName = .ok (.classRef s) := by
  obtain ⟨inner, hchain, hinner⟩ := ha.chain hsound.linked
  rw [hx.chain hsound.linked] at hchain
  have hcode : ∀ b ∈ inner ++ [x], h.RunsCode b :=
    List.forall_mem_append.mpr ⟨hinner, List.forall_mem_singleton.mpr hx.runsCode⟩
  have hd : (inner ++ [x]).length = inner.length + 1 := List.length_append
  refine ⟨inner.length + 1, ?_, ?_, ?_⟩
  · rw [hchain, ← hd, List.append_cons]
    exact findIdx?_behind (fun b hb => (hcode b hb).receiver) hx.bound.receiver
  · refine getAt_of_find? ?_ hx.bound.this
    rw [hchain, List.getElem?_append_right (Nat.le_succ _)]
    simp
  · intro s hs hsuper
    obtain ⟨_, hm⟩ := hx.bound.method.method hsound
    obtain ⟨horigin, hbinding⟩ := hm.closure.derived s hs
    have hclosure : ∀ b ∈ inner ++ [x] ++ [(h.function f).closure], h.HoldsSuperclass b = false := by
      refine List.forall_mem_append.mpr ⟨fun b hb => (hcode b hb).superclass, ?_⟩
      refine List.forall_mem_singleton.mpr ?_
      exact Around.not_superclass (hm.closure.around hx.bound.receiver hx.bound.link)
    have hd' : (inner ++ [x] ++ [(h.function f).closure]).length = inner.length + 1 + 1 := by
      rw [List.length_append, hd]
      rfl
    constructor
    · rw [hchain, ← hd', List.append_cons, List.append_cons (inner ++ [x]), chain_eq hsound.linked]
      exact findIdx?_behind hclosure horigin
    · refine getAt_of_find? ?_ (hbinding hsuper)
      have hindex : inner.length + 1 + 1 - inner.length = 2 := by omega
      rw [hchain, List.getElem?_append_right (by omega), chain_eq hsound.linked, hindex]
      rfl

end Heap

end LoxLang
