import LoxLang.Proofs.Eval.Natives
import LoxLang.Proofs.Eval.Register
import LoxLang.Proofs.Store.Sound

/-!
Actions that uphold a law. Such an action, begun on a sound heap, ends on a later heap that is sound and
in the frame in which it began, whether it has a result or not. Of two versions of it, one is watched:
the two come to the same, unless what watches the run stops it. Then it has been stopped at a node that
obeys the law, and the heap at that moment lies between the heap at the beginning and the one at which
the other version ends.
-/

namespace LoxLang

open Scope Eval

/-- What holds of a machine when evaluation comes to a node. -/
structure Law.Admits (law : Law) (node : Node) (m : Machine) : Prop where
  sound : m.heap.Sound law
  code : m.heap.RunsCode m.current
  obeys : ∃ k, m.heap.Around m.current k ∧ node.Obeys law k

variable {α β : Type}

/-- The heap that an action leaves, however it ends. -/
def heapOf : EStateM.Result Fault Machine α → Heap
  | .ok _ m => m.heap
  | .error _ m => m.heap

/-- What a node leaves of the heap of a machine, with some fuel or other. -/
def Node.Leaves (σ : Setting) (m : Machine) (h : Heap) : Node → Prop
  | .expr e => ∃ n, heapOf (evaluate σ (n + 1) e m) = h
  | .stmt s => ∃ n, heapOf (execute σ (n + 1) s m) = h

/-- A watched run is stopped between two heaps: at a node that would have left a heap between them,
too. -/
inductive Stops (law : Law) (σ : Setting) (see : Node → Eval Unit) (h h' : Heap) : Prop
  | stops {node : Node} {m : Machine} {left : Heap} (hsee : see node m ≠ .ok () m)
    (hadmits : law.Admits node m) (hbefore : h.Grows law m.heap) (hleaves : node.Leaves σ m left)
    (hrun : m.heap.Grows law left) (hbehind : left.Grows law h')

theorem Stops.widen {law : Law} {σ : Setting} {see : Node → Eval Unit} {h h₁ h₂ h' : Heap}
    (hbefore : h.Grows law h₁) (hbehind : h₂.Grows law h') (hstops : Stops law σ see h₁ h₂) :
    Stops law σ see h h' := by
  obtain ⟨hsee, hadmits, hbefore', hleaves, hrun, hbehind'⟩ := hstops
  exact ⟨hsee, hadmits, hbefore.trans hbefore', hleaves, hrun, hbehind'.trans hbehind⟩

inductive Ends (law : Law) (h : Heap) (a : Address) (Q : Heap → α → Prop) :
    EStateM.Result Fault Machine α → Prop
  | ok {v : α} {m : Machine} (hle : h.Grows law m.heap) (hsound : m.heap.Sound law)
    (hcurrent : m.current = a) (hv : Q m.heap v) : Ends law h a Q (.ok v m)
  | error {fault : Fault} {m : Machine} (hle : h.Grows law m.heap) (hsound : m.heap.Sound law)
    (hcurrent : m.current = a) : Ends law h a Q (.error fault m)

/-- The watched action `x` and the action `x'` uphold a law from a heap on, with results that
satisfy `Q`. -/
def Upholds (law : Law) (σ : Setting) (see : Node → Eval Unit) (h : Heap) (a : Address) (x x' : Eval α)
    (Q : Heap → α → Prop) : Prop :=
  ∀ m, m.heap = h → m.current = a →
    Ends law h a Q (x' m) ∧ (x m = x' m ∨ Stops law σ see h (heapOf (x' m)))

theorem Ends.grows {law : Law} {h : Heap} {a : Address} {Q : Heap → α → Prop}
    {r : EStateM.Result Fault Machine α} (hr : Ends law h a Q r) : h.Grows law (heapOf r) := by
  cases hr with
  | ok hle => exact hle
  | error hle => exact hle

namespace Upholds

variable {law : Law} {σ : Setting} {see : Node → Eval Unit} {h h' : Heap} {a b : Address} {x x' : Eval α}
  {Q : Heap → α → Prop} {R : Heap → β → Prop} {v : α} {line : Nat}

/-! ### Sequencing -/

theorem of_ok {m n : Machine} (hx : Upholds law σ idle m.heap m.current x x' Q)
    (hrun : x' m = .ok v n) :
    m.heap.Grows law n.heap ∧ n.heap.Sound law ∧ n.current = m.current ∧ Q n.heap v := by
  obtain ⟨hends, -⟩ := hx m rfl rfl
  rw [hrun] at hends
  cases hends with
  | ok hle hsound hcurrent hv => exact ⟨hle, hsound, hcurrent, hv⟩

theorem pure (hsound : h.Sound law) (hv : Q h v) : Upholds law σ see h a (pure v) (pure v) Q := by
  rintro m rfl hcurrent
  exact ⟨.ok (.refl law _) hsound hcurrent hv, .inl rfl⟩

theorem throw (hsound : h.Sound law) (fault : Fault) :
    Upholds law σ see h a (throw fault) (throw fault) Q := by
  rintro m rfl hcurrent
  exact ⟨.error (.refl law _) hsound hcurrent, .inl rfl⟩

theorem fail (hsound : h.Sound law) (cause : RuntimeCause) :
    Upholds law σ see h a (Eval.fail line cause) (Eval.fail line cause) Q :=
  throw hsound _

theorem bind {f f' : α → Eval β} (hx : Upholds law σ see h a x x' Q)
    (hf : ∀ h', h.Grows law h' → h'.Sound law → ∀ v, Q h' v → Upholds law σ see h' a (f v) (f' v) R) :
    Upholds law σ see h a (x >>= f) (x' >>= f') R := by
  intro m hheap hcurrent
  obtain ⟨hends, hsame⟩ := hx m hheap hcurrent
  change Ends law h a R (EStateM.bind x' f' m) ∧ (EStateM.bind x f m = EStateM.bind x' f' m ∨
    Stops law σ see h (heapOf (EStateM.bind x' f' m)))
  unfold EStateM.bind
  generalize x' m = r' at hends hsame
  cases hends with
  | error hle hsound hafter =>
      refine ⟨.error hle hsound hafter, ?_⟩
      rcases hsame with hsame | hstops
      · exact .inl (by rw [hsame])
      · exact .inr hstops
  | @ok v n hle hsound hafter hv =>
      obtain ⟨hends', hsame'⟩ := hf n.heap hle hsound v hv n rfl hafter
      dsimp only at hsame ⊢
      generalize f' v n = s' at hends' hsame'
      have hrest := hends'.grows
      constructor
      · cases hends' with
        | ok hle' hsound' hafter' hv' => exact .ok (hle.trans hle') hsound' hafter' hv'
        | error hle' hsound' hafter' => exact .error (hle.trans hle') hsound' hafter'
      · rcases hsame with hsame | hstops
        · rw [hsame]
          rcases hsame' with hsame' | hstops
          · exact .inl hsame'
          · exact .inr (hstops.widen hle (.refl law _))
        · exact .inr (hstops.widen (.refl law _) hrest)

theorem mono {Q' : Heap → α → Prop} (hx : Upholds law σ see h a x x' Q)
    (hQ : ∀ h', h.Grows law h' → h'.Sound law → ∀ v, Q h' v → Q' h' v) :
    Upholds law σ see h a x x' Q' := by
  intro m hheap hcurrent
  obtain ⟨hends, hsame⟩ := hx m hheap hcurrent
  refine ⟨?_, hsame⟩
  generalize x' m = r' at hends
  cases hends with
  | ok hle hsound hafter hv => exact .ok hle hsound hafter (hQ _ hle hsound _ hv)
  | error hle hsound hafter => exact .error hle hsound hafter

theorem map {g : α → β} (hx : Upholds law σ see h a x x' Q)
    (hg : ∀ h', h.Grows law h' → h'.Sound law → ∀ v, Q h' v → R h' (g v)) :
    Upholds law σ see h a (g <$> x) (g <$> x') R := by
  rw [map_eq_pure_bind, map_eq_pure_bind]
  exact hx.bind fun h' hle hsound v hv => .pure hsound (hg h' hle hsound v hv)

/-- A node is seen before it is run. -/
theorem seen {node : Node} (hsound : h.Sound law) (hcode : h.RunsCode a)
    (hobeys : ∃ k, h.Around a k ∧ node.Obeys law k) (hx : Upholds law σ see h a x x' Q)
    (hleaves : ∀ m, node.Leaves σ m (heapOf (x' m))) :
    Upholds law σ see h a (do see node; x) x' Q := by
  rintro m rfl rfl
  obtain ⟨hends, hsame⟩ := hx m rfl rfl
  refine ⟨hends, ?_⟩
  by_cases hsee : see node m = .ok () m
  · have heq : (do see node; x) m = x m := by
      change EStateM.bind (see node) (fun _ => x) m = _
      rw [EStateM.bind, hsee]
    rw [heq]
    exact hsame
  · exact .inr ⟨hsee, ⟨hsound, hcode, hobeys⟩, .refl law _, hleaves m, hends.grows, .refl law _⟩

/-! ### Reading and changing the machine -/

theorem bind_get {f f' : Machine → Eval β}
    (hf : ∀ m, m.heap = h → m.current = a → Upholds law σ see h a (f m) (f' m) R) :
    Upholds law σ see h a (get >>= f) (get >>= f') R :=
  fun m hheap hcurrent => hf m hheap hcurrent m hheap hcurrent

theorem bind_getHeap {f f' : Heap → Eval β} (hf : Upholds law σ see h a (f h) (f' h) R) :
    Upholds law σ see h a (Eval.getHeap >>= f) (Eval.getHeap >>= f') R := by
  rintro m rfl hcurrent
  exact hf m rfl hcurrent

theorem bind_getCurrent {f f' : Address → Eval β} (hf : Upholds law σ see h a (f a) (f' a) R) :
    Upholds law σ see h a (Eval.getCurrent >>= f) (Eval.getCurrent >>= f') R := by
  rintro m hheap rfl
  exact hf m hheap rfl

theorem bind_consult {f f' : Sight → Eval β}
    (hf : ∀ n, Upholds law σ see h a (f ⟨h, n⟩) (f' ⟨h, n⟩) R) :
    Upholds law σ see h a (Eval.consult >>= f) (Eval.consult >>= f') R := by
  rintro m rfl hcurrent
  exact hf m.answered { m with answered := m.answered + 1 } rfl hcurrent

theorem onLine {r : Except RuntimeCause α} (hsound : h.Sound law) (hok : ∀ v, r = .ok v → Q h v) :
    Upholds law σ see h a (Eval.onLine line r) (Eval.onLine line r) Q := by
  cases r with
  | ok v => exact pure hsound (hok v rfl)
  | error cause => exact fail hsound cause

theorem changeHeap {change : Heap → Heap} (hle : h.Grows law (change h))
    (hsound : (change h).Sound law) :
    Upholds law σ see h a (Eval.changeHeap change) (Eval.changeHeap change)
      fun h' _ => h' = change h := by
  rintro m rfl hcurrent
  exact ⟨.ok hle hsound hcurrent rfl, .inl rfl⟩

theorem allocate {free : Heap → Address} {add : Heap → Heap} (hle : h.Grows law (add h))
    (hsound : (add h).Sound law) :
    Upholds law σ see h a (Eval.allocate free add) (Eval.allocate free add)
      fun h' b => h' = add h ∧ b = free h := by
  rintro m rfl hcurrent
  exact ⟨.ok hle hsound hcurrent ⟨rfl, rfl⟩, .inl rfl⟩

theorem newFrame {f : Frame} (hsound : h.Sound law)
    (hplaced : (h.addFrame f).Placed h.frames.size)
    (hvalues : ∀ name v, f.bindings.find? name = some v → h.Has law v) :
    Upholds law σ see h a (Eval.newFrame f) (Eval.newFrame f)
      fun h' b => h' = h.addFrame f ∧ b = h.frames.size :=
  allocate (h.grows_addFrame law f) (hsound.addFrame hplaced hvalues)

theorem newFunction {f : FunctionObject} (hsound : h.Sound law)
    (hnew : (h.addFunction f).FunctionSound law h.functions.size) :
    Upholds law σ see h a (Eval.newFunction f) (Eval.newFunction f)
      fun h' b => h' = h.addFunction f ∧ b = h.functions.size :=
  allocate (h.grows_addFunction law f) (hsound.addFunction hnew)

theorem newClass {c : ClassObject} (hsound : h.Sound law)
    (hup : ∀ up, c.superclass = some up → up < h.classes.size)
    (hmethods : ∀ name m, c.methods.find? name = some m → h.Method law c.superclass name m) :
    Upholds law σ see h a (Eval.newClass c) (Eval.newClass c)
      fun h' b => h' = h.addClass c ∧ b = h.classes.size :=
  allocate (h.grows_addClass law c) (hsound.addClass hup hmethods)

theorem newInstance {c : Address} (hsound : h.Sound law) (hc : c < h.classes.size) :
    Upholds law σ see h a (Eval.newInstance ⟨c, []⟩) (Eval.newInstance ⟨c, []⟩)
      fun h' b => h' = h.addInstance ⟨c, []⟩ ∧ b = h.instances.size :=
  allocate (h.grows_addInstance law _) (hsound.addInstance hc)

/-- An action in another frame. -/
theorem inFrame (hx : Upholds law σ see h b x x' Q) :
    Upholds law σ see h a (Eval.inFrame b x) (Eval.inFrame b x') Q := by
  rintro m rfl rfl
  obtain ⟨hends, hsame⟩ := hx { m with current := b } rfl rfl
  unfold Eval.inFrame
  generalize x' { m with current := b } = r' at hends hsame
  cases hends with
  | ok hle hsound hcurrent hv =>
      refine ⟨.ok hle hsound rfl hv, ?_⟩
      rcases hsame with hsame | hstops
      · exact .inl (by rw [hsame])
      · exact .inr hstops
  | error hle hsound hcurrent =>
      refine ⟨.error hle hsound rfl, ?_⟩
      rcases hsame with hsame | hstops
      · exact .inl (by rw [hsame])
      · exact .inr hstops

/-- An action that leaves the heap and the frame alone. -/
theorem quiet {x : Eval α} (hsound : h.Sound law)
    (hx : ∀ m, (machineAfter x m).heap = m.heap ∧ (machineAfter x m).current = m.current) :
    Upholds law σ see h a x x fun h' _ => h' = h := by
  rintro m rfl rfl
  have hsame := hx m
  unfold machineAfter at hsame
  refine ⟨?_, .inl rfl⟩
  generalize x m = r at hsame
  cases r with
  | ok v n =>
      obtain ⟨hheap, hcurrent⟩ := hsame
      exact .ok (hheap ▸ .refl law _) (hheap ▸ hsound) hcurrent hheap
  | error fault n =>
      obtain ⟨hheap, hcurrent⟩ := hsame
      exact .error (hheap ▸ .refl law _) (hheap ▸ hsound) hcurrent

theorem write (hsound : h.Sound law) (s : String) :
    Upholds law σ see h a (Eval.write s) (Eval.write s) fun h' _ => h' = h := by
  refine quiet hsound fun m => ?_
  unfold Eval.write
  by_cases hs : s.isEmpty = true
  · rw [if_pos hs]
    exact ⟨rfl, rfl⟩
  · rw [if_neg hs]
    simp only [machineAfter, Bind.bind, EStateM.bind, get, getThe, MonadStateOf.get, Eval.get_eq]
    cases m.output.refusal m.output.text <;> exact ⟨rfl, rfl⟩

theorem flush (hsound : h.Sound law) :
    Upholds law σ see h a Eval.flush Eval.flush fun h' _ => h' = h := by
  refine quiet hsound fun m => ?_
  unfold Eval.flush
  simp only [machineAfter, Bind.bind, EStateM.bind, get, getThe, MonadStateOf.get, Eval.get_eq]
  cases m.output.flushRefusal <;> exact ⟨rfl, rfl⟩

end Upholds

end LoxLang
