import LoxLang.Proofs.Session.Calls

/-!
Initializers. A method that is named as initializers are is called only as bound to an instance. The
frame next to its closure holds this instance as long as there are such frames: no accepted tree
assigns to `this` or declares it, and no frame that code runs in is that of a receiver. So a completed
call of an initializer gives the instance that it is bound to, and a completed call of a class an instance
of this class that was not there.
-/

namespace LoxLang

open Scope Eval

namespace Heap

/-- A function is an initializer of an instance: a bound copy of a method that a class declares, with the
name that initializers have. -/
def Initializes (h : Heap) (f i : Address) : Prop :=
  (h.function f).decl.name = FunctionDecl.initializerName ∧ ∃ c m, h.Bound f c m i

/-- A value is an instance of a class that a call has made. What there was before holds other values:
the frames, the instances, and the arguments of the call. -/
structure Makes (h h' : Heap) (c : Address) (arguments : List Value) (v : Value) : Prop where
  value : v = .object h.instances.size
  size : h.instances.size < h'.instances.size
  classAddress : (h'.instanceObject h.instances.size).classAddress = c
  bindings : ∀ a name, (h.frame a).bindings.find? name ≠ some v
  fields : ∀ i name, (h.instanceObject i).fields.find? name ≠ some v
  arguments : v ∉ arguments

variable {law : Law} {h h' : Heap} {f c m i : Address}

/-- Among the functions that programs can hold, those that the machine treats as initializers are bound
initializers. -/
theorem Sound.isInitializer_iff (hsound : h.Sound law) (hthis : ¬law.Writes receiverName)
    (hf : h.Callable law f) :
    (h.function f).isInitializer = true ↔ ∃ i, h.Initializes f i := by
  have hflag : ∀ c m i, h.Bound f c m i →
      (h.function f).isInitializer = (h.function f).decl.isInitializer := by
    intro c m i hbound
    obtain ⟨name, hmethod⟩ := hbound.method.method hsound
    rw [hbound.flag, hmethod.flag, hbound.decl]
  constructor
  · intro hinit
    obtain ⟨c, m, i, hbound⟩ := (hsound.functions f hf.size).bound hthis (hf.bound hinit)
    rw [hflag c m i hbound] at hinit
    exact ⟨i, beq_iff_eq.mp hinit, c, m, hbound⟩
  · rintro ⟨i, hname, c, m, hbound⟩
    rw [hflag c m i hbound]
    exact beq_iff_eq.mpr hname

theorem Initializes.mono (hsound : h.Sound law) (hthis : ¬law.Writes receiverName)
    (hle : h.Grows law h') (hf : h.Initializes f i) : h'.Initializes f i := by
  obtain ⟨hname, c, m, hbound⟩ := hf
  refine ⟨?_, c, m, hbound.mono hsound hthis hle⟩
  rw [hle.function f hbound.size, hname]

/-- A function that initializes an instance later on does so already if it is there. -/
theorem Initializes.of_grows (hsound : h.Sound law) (hthis : ¬law.Writes receiverName)
    (hle : h.Grows law h') (hsize : f < h.functions.size) (hf : h'.Initializes f i) :
    h.Initializes f i := by
  obtain ⟨hname, c', m', hbound'⟩ := hf
  have hfunction := hle.function f hsize
  have hreceiver : (h.frame (h.function f).closure).origin.isReceiver = true := by
    rw [← hle.origin _ (hsound.functions f hsize).closure, ← hfunction, hbound'.receiver]
  obtain ⟨c, m, j, hbound⟩ := (hsound.functions f hsize).bound hthis hreceiver
  have hboth := (hbound.mono hsound hthis hle).this.symm.trans hbound'.this
  cases hboth
  exact ⟨hfunction ▸ hname, c, m, hbound⟩

/-- An instance that is not there is held by nothing. -/
theorem Sound.makes (hsound : h.Sound law) {arguments : List Value}
    (harguments : ∀ v ∈ arguments, h.Has law v) (hsize : h.instances.size < h'.instances.size)
    (hclass : (h'.instanceObject h.instances.size).classAddress = c) :
    h.Makes h' c arguments (.object h.instances.size) where
  value := rfl
  size := hsize
  classAddress := hclass
  bindings a name hv := Nat.lt_irrefl _ (hsound.values a name _ hv)
  fields i name hv := Nat.lt_irrefl _ (hsound.fields i name _ hv)
  arguments hv := Nat.lt_irrefl _ (harguments _ hv)

end Heap

section

variable {law : Law} {natives : List Native} {m q q' : Machine} {js : List Job} {σ : Setting}
  {n line : Nat} {w : Value} {vs : List Value} {run : List Stmt → Eval Flow} {c f i : Address}

/-- A called initializer runs its body and gives its receiver back. -/
theorem Eval.callFunction_initializer (hrun : Upholds.Runs law σ idle run run)
    (hthis : ¬law.Writes receiverName) (hsound : q.heap.Sound law) (hf : q.heap.Callable law f)
    (hvs : ∀ w ∈ vs, q.heap.Has law w) (hinit : q.heap.Initializes f i) :
    callFunction run f vs line q = (do let _ ← callBody run f vs; return Value.object i) q := by
  have hflag := (hsound.isInitializer_iff hthis hf).mpr ⟨i, hinit⟩
  obtain ⟨-, c, m, hbound⟩ := hinit
  obtain ⟨hends, -⟩ := Upholds.callBody (a := q.current) hrun hsound hf hvs q rfl rfl
  rw [callFunction_eq]
  change EStateM.bind (callBody run f vs) _ q = EStateM.bind (callBody run f vs) _ q
  unfold EStateM.bind
  generalize callBody run f vs q = r at hends
  cases hends with
  | error => rfl
  | @ok flow q₁ hle hsound₁ =>
      have hthere := (hbound.mono hsound hthis hle).getAt
      rw [hle.function f hf.size] at hthere
      dsimp only
      rw [if_pos hflag]
      change onLine line (q₁.heap.getAt (q.heap.function f).closure 0 receiverName) q₁ = _
      rw [hthere]
      rfl

/-- A call of a class that has an initializer calls this initializer, bound to the new instance. -/
theorem Machine.Calls.initializer {method : Address}
    (h : Calls natives m js σ n (.classRef c) vs line q) (hsound : q.heap.Sound law)
    (hc : c < q.heap.classes.size)
    (hfound : q.heap.findMethod? c FunctionDecl.initializerName = some method)
    (hrun : instantiate (executeAll (execute σ n)) c vs line q = .ok w q') :
    ∃ f q₁ u, Calls natives m js σ n (.function f) vs line q₁ ∧
      q₁.heap.Initializes f q.heap.instances.size ∧
      callFunction (executeAll (execute σ n)) f vs line q₁ = .ok u q' := by
  obtain ⟨i, q₁, hnew, hrun⟩ := Grammar.bind_ok_iff.mp hrun
  obtain ⟨h₁, q₂, hheap, hrun⟩ := Grammar.bind_ok_iff.mp hrun
  cases hheap
  have hclasses : q₁.heap.classes = q.heap.classes := by
    cases hnew
    rfl
  have hfound₁ : q₁.heap.findMethod? c FunctionDecl.initializerName = some method :=
    (Heap.findMethod?_congr hclasses c _).trans hfound
  rw [hfound₁] at hrun
  obtain ⟨f, q₃, hbind, hrun⟩ := Grammar.bind_ok_iff.mp hrun
  obtain ⟨u, q₄, hcall, hrun⟩ := Grammar.bind_ok_iff.mp hrun
  cases hrun
  have hboth : (do bindMethod method (.object (← newInstance ⟨c, []⟩))) q = .ok f q₃ :=
    (Grammar.bind_of_ok hnew).trans hbind
  obtain ⟨-, -, -, hname, d, hbound⟩ := bind_initializer σ hsound hc hfound hboth
  exact ⟨f, q₃, u, .made h hfound hboth, ⟨hname, d, method, hbound⟩, hcall⟩

end

/-- What initializers and classes give where they are called in the course of some jobs. -/
structure Machine.YieldsReceivers (natives : List Native) (m : Machine) (js : List Job) : Prop where
  /-- Every call that has a value comes from a value that has been called. -/
  calls : ∀ j callee paren arguments p n w q',
    Comes natives m js j (.expr (.call callee paren arguments)) p →
      evaluate (j.setting natives) (n + 1) (.call callee paren arguments) p = .ok w q' →
        ∃ v vs q, m.Calls natives js (j.setting natives) n v vs paren.line q ∧
          enter (j.setting natives) (executeAll (execute (j.setting natives) n)) v vs paren.line q =
            .ok w q'
  flagged : ∀ σ n f vs line q, m.Calls natives js σ n (.function f) vs line q →
    ((q.heap.function f).isInitializer = true ↔ ∃ i, q.heap.Initializes f i)
  /-- An initializer gives the instance that it is bound to, whatever its body does. -/
  receiver : ∀ σ n f vs line q, m.Calls natives js σ n (.function f) vs line q →
    ∀ i, q.heap.Initializes f i → enter σ (executeAll (execute σ n)) (.function f) vs line q =
      (do let _ ← callBody (executeAll (execute σ n)) f vs; return Value.object i) q
  /-- A class gives an instance of its own that was not there. -/
  makes : ∀ σ n c vs line q, m.Calls natives js σ n (.classRef c) vs line q → ∀ w q',
    enter σ (executeAll (execute σ n)) (.classRef c) vs line q = .ok w q' → q.heap.Makes q'.heap c vs w
  initialized : ∀ σ n c vs line q, m.Calls natives js σ n (.classRef c) vs line q → ∀ w q',
    enter σ (executeAll (execute σ n)) (.classRef c) vs line q = .ok w q' → ∀ method,
      q.heap.findMethod? c FunctionDecl.initializerName = some method →
        ∃ f q₁ u, m.Calls natives js σ n (.function f) vs line q₁ ∧
          q₁.heap.Initializes f q.heap.instances.size ∧
          enter σ (executeAll (execute σ n)) (.function f) vs line q₁ = .ok u q'
  this : ∀ p, m.Passes natives js p → ∀ f i, p.heap.Initializes f i →
    p.heap.getAt (p.heap.function f).closure 0 receiverName = .ok (.object i)
  later : ∀ p, m.Passes natives js p → ∀ f i, p.heap.Initializes f i →
    ∀ q, m.Passes natives js q → f < q.heap.functions.size → q.heap.Initializes f i

/-- Every call of a session that has a value comes from a value that has been called. A function that
is called is treated as an initializer just if it is a bound method of this name, and then gives the
instance that it is bound to, whatever its body does: looking up `this` never fails. A class that is
called gives an instance of its own that was not there, and has called its initializer if it has or
inherits one. What initializes an instance does so at all times, and holds it in its closure. -/
theorem initializers_yield_receivers {natives : List Native}
    (hnatives : ∀ native ∈ natives, native.Conserves) {output : Output} {rs : List Request}
    {m : Machine} {js : List Job} (hm : m = .initial natives output)
    (hjs : js = (Session.initial natives output).jobs rs) : m.YieldsReceivers natives js := by
  have hready : m.Ready .accepted := hm ▸ Machine.ready_initial _ _ _
  have hobeys : ∀ j ∈ js, j.chunk.Obeys .accepted := hjs ▸ Session.jobs_obey
  have hruns : ∀ σ : Setting, σ.natives = natives → ∀ n,
      Upholds.Runs .accepted σ idle (executeAll (execute σ n)) (executeAll (execute σ n)) := by
    intro σ hσ n
    have hexec : Upholds.Executes .accepted σ idle (executeWatched idle σ n) (execute σ n) :=
      (Upholds.evaluates_executes (hσ ▸ hnatives) n).2
    rw [(watched_idle σ n).2] at hexec
    exact Upholds.executeAll hexec
  constructor
  case calls => exact fun j callee paren arguments p n w q' hcomes hrun => hcomes.calls hrun
  case flagged =>
    intro σ n f vs line q hcall
    obtain ⟨-, hsound, hf, -⟩ := hcall.sound hnatives hobeys hready
    exact hsound.isInitializer_iff Law.this_unwritten hf
  case receiver =>
    intro σ n f vs line q hcall i hinit
    obtain ⟨hσ, hsound, hf, hvs⟩ := hcall.sound hnatives hobeys hready
    exact callFunction_initializer (hruns σ hσ n) Law.this_unwritten hsound hf hvs hinit
  case makes =>
    intro σ n c vs line q hcall w q' hrun
    obtain ⟨hσ, hsound, hc, hvs⟩ := hcall.sound hnatives hobeys hready
    obtain ⟨-, -, -, rfl, hsize, hclass⟩ :=
      (Upholds.instantiate (hruns σ hσ n) hsound hc hvs).of_ok hrun
    exact hsound.makes hvs hsize hclass
  case initialized =>
    intro σ n c vs line q hcall w q' hrun method hfound
    obtain ⟨hσ, hsound, hc, hvs⟩ := hcall.sound hnatives hobeys hready
    obtain ⟨-, -, -, rfl, -⟩ := (Upholds.instantiate (hruns σ hσ n) hsound hc hvs).of_ok hrun
    exact hcall.initializer hsound hc hfound hrun
  case this =>
    rintro p hp f i ⟨-, c, method, hbound⟩
    exact hbound.getAt
  case later =>
    intro p hp f i hinit q hq hsize
    obtain ⟨hsound, -, hle⟩ := hp.sound hnatives hobeys hready
    obtain ⟨hsound', -, hle'⟩ := hq.sound hnatives hobeys hready
    exact (hinit.mono hsound Law.this_unwritten hle).of_grows hsound' Law.this_unwritten hle' hsize

/-- A class whose initializer returns at once is called. -/
theorem initializers_yield_receivers_class :
    ∃ (m : Machine) (js : List Job) (q q' : Machine) (w : Value) (line : Nat),
      m = .initial [.clock 0] .unlimited ∧
      js = (Session.initial [.clock 0] .unlimited).jobs
        [.run 9 "class A \x7b init() \x7b return; \x7d \x7d", .evaluate 9 "A()"] ∧
      (∃ σ n, m.Calls [.clock 0] js σ n (.classRef 0) [] line q ∧
        enter σ (executeAll (execute σ n)) (.classRef 0) [] line q = .ok w q') ∧
      q.heap.Makes q'.heap 0 [] w := by
  have hrun : (((Session.initial [.clock 0] .unlimited).handle
      (.run 9 "class A \x7b init() \x7b return; \x7d \x7d")).bind fun t =>
        (t.session.job? (.evaluate 9 "A()")).bind fun j => j.chunk.called?.bind fun c =>
          ((lookUp (j.setting [.clock 0]) c.1).run' t.session.machine).bind fun v =>
            ((enter (j.setting [.clock 0]) (executeAll (execute (j.setting [.clock 0]) 8)) (.classRef 0) []
              c.2.line).run' t.session.machine).map fun _ =>
                (v.same (.classRef 0), t.session.machine.heap.arity? [.clock 0] (.classRef 0))) =
      some (true, some 0) := by decide +kernel
  obtain ⟨t, ht, hrun⟩ := Option.bind_eq_some_iff.mp hrun
  obtain ⟨j, hj, hrun⟩ := Option.bind_eq_some_iff.mp hrun
  obtain ⟨⟨ref, paren⟩, hcalled, hrun⟩ := Option.bind_eq_some_iff.mp hrun
  obtain ⟨v, hv, hrun⟩ := Option.bind_eq_some_iff.mp hrun
  obtain ⟨w, hw, hrun⟩ := Option.map_eq_some_iff.mp hrun
  obtain ⟨hsame, harity⟩ := Prod.mk.inj hrun
  cases Value.eq_of_same_classRef hsame
  obtain ⟨q, hlookUp⟩ := ok_of_run' hv
  cases lookUp_ok hlookUp
  obtain ⟨q', hcall⟩ := ok_of_run' hw
  have hfirst : j.chunk.first? = some (.expr (.call (.ident ref) paren [])) := by
    rw [Chunk.eq_of_called? hcalled]
    rfl
  have hcomes := Session.comes_first hj hfirst rfl []
  rw [Session.natives_of_handle ht] at hcomes
  have hcalls : Machine.Calls [.clock 0] _ _ (j.setting [.clock 0]) 8 (.classRef 0) [] paren.line t.session.machine :=
    .written (Session.comes_handled ht hcomes) hlookUp rfl harity
  exact ⟨_, _, _, q', w, paren.line, rfl, rfl, ⟨_, _, hcalls, hcall⟩,
    (initializers_yield_receivers (Native.conserves_of_clock 0 _) rfl rfl).makes _ _ _ _ _ _ hcalls w q'
      hcall⟩

end LoxLang
