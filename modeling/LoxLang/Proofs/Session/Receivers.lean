import LoxLang.Proofs.Scope.Ties
import LoxLang.Proofs.Session.Calls
import LoxLang.Proofs.Store.Activations

/-!
`this` and `super`. Whenever a session comes to one of them, the current frame belongs to an activation
of a method, and the distance that the static walk has entered is that of the receiver of the activation
or, for `super`, of the superclass next to it. So `this` is the object that the method is bound to, and
`super` finds methods from the superclass on that the class statement was given. Activations begin with
the calls of bound methods, and the calls of functions that are made in them belong to them. They stay
what they are, as do classes and the methods that they have and inherit.
-/

namespace LoxLang

open Scope Eval

/-! ### Looking up -/

section

variable {σ : Setting} {p : Machine} {ref : Reference}

/-- `super` where the superclass and the receiver are found. -/
theorem Eval.superMethod_eq {d : Nat} {s o : Address} {method : Token}
    (hlookup : σ.distances.lookup ref.id = some (d + 1))
    (hsuper : p.heap.getAt p.current (d + 1) superclassName = .ok (.classRef s))
    (hthis : p.heap.getAt p.current d receiverName = .ok (.object o)) :
    superMethod σ ref method p = ((p.heap.findMethod? s method.lexeme).elim
      (fail method.line (.undefinedProperty method.lexeme))
      fun found => do return .function (← bindMethod found (.object o)) : Eval Value) p := by
  rw [superMethod, hlookup]
  refine (Grammar.bind_of_ok rfl).trans ?_
  rw [hsuper, hthis]
  refine (Grammar.bind_of_ok rfl).trans ((Grammar.bind_of_ok rfl).trans ?_)
  dsimp only
  cases p.heap.findMethod? s method.lexeme <;> rfl

/-- What `super` comes to where the superclass is `s` and the receiver `o`: a copy of the method that the
first class from the superclass upwards has, bound to the receiver, or the fault that no class has one. -/
inductive Eval.GivesMethod (p : Machine) (s o : Address) (name : Token) :
    EStateM.Result Fault Machine Value → Prop
  | found {method d f : Address} {p' : Machine} (hd : p.heap.Inherits name.lexeme s d method)
    (hbound : p'.heap.Bound f d method o) : GivesMethod p s o name (.ok (.function f) p')
  | missing (hlacks : p.heap.Lacks name.lexeme s) :
    GivesMethod p s o name (.error (.runtime ⟨name.line, .undefinedProperty name.lexeme⟩) p)

end

/-! ### Scopes and frames -/

section

variable {natives : List Native} {output : Output}

/-- Where the scopes of a visit are tied to the frames, the distance of `this` or of `super` is that of the
first frame that there is for it. -/
theorem Resolves.lookup_eq {σ : Setting} {m : Machine} {ref : Reference} {v : Visit}
    (h : Resolves σ m ref v) (hv : v.Tied) {q : Origin → Bool} (hglobals : q .globals = false)
    (hq : ∀ scope o, Ties scope o → scope.contains ref.name.lexeme = q o) :
    σ.distances.lookup ref.id =
      (m.heap.chain m.current).findIdx? fun f => q (m.heap.frame f).origin := by
  have hframes := congrArg (List.findIdx? q) h.frames
  rw [List.findIdx?_map, List.findIdx?_append, List.findIdx?_singleton, hglobals] at hframes
  rw [h.entry]
  exact (findIdx?_of_forall₂ hv hq).trans (hframes.trans (Option.or_none ..)).symm

theorem Request.visits_tied {i : Identity} {r : Request} : ∀ v ∈ r.visits i, v.Tied := by
  intro v hv
  obtain ⟨ch, hch, -, hv⟩ := Request.visits_subset hv
  have hspelled := (r.derives_chunk hch).2.spelled (scanned_textTokens r.text).genuine
  cases ch with
  | program ss => exact visitsStmts_tied ss hspelled .nil v hv
  | expression e => exact e.visits_tied hspelled .nil v hv

/-- The scopes of all visits of a session are tied to frames. -/
theorem Session.visits_tied {s : Session} {rs : List Request} : ∀ v ∈ s.visits rs, v.Tied := by
  induction rs generalizing s with
  | nil => exact List.forall_mem_nil _
  | cons r rest ih =>
      refine List.forall_mem_append.mpr ⟨Request.visits_tied, ?_⟩
      cases s.handle r with
      | none => exact List.forall_mem_nil _
      | some t => exact ih

end

/-! ### Classes -/

section

variable {law : Law} {natives : List Native} {m p p' : Machine} {j : Job} {js : List Job} {name : Token}
  {superclass : Option Reference} {methods : List FunctionDecl} {n : Nat} {flow : Flow}

/-- A class statement that ends without a fault has found its superclass, and has made a class of this
and of its methods that stays so. -/
theorem Machine.Comes.realizes
    (hcomes : Comes natives m js j (.stmt (.classDecl name superclass methods)) p)
    (hnatives : ∀ native ∈ natives, native.Conserves) (hobeys : ∀ j ∈ js, j.chunk.Obeys law)
    (hready : m.Ready law)
    (hrun : execute (j.setting natives) (n + 1) (.classDecl name superclass methods) p = .ok flow p') :
    p'.heap.Sound law ∧ p'.heap.Grows law (m.after natives js).heap ∧
      ∃ up c, superclassOf (j.setting natives) superclass p = .ok up p ∧ p.heap.classes.size ≤ c ∧
        p'.heap.Realizes c up methods := by
  obtain ⟨⟨hsound, hcode, k, haround, hnode⟩, -, left, hleaves, -, hbehind⟩ :=
    hcomes.admits hnatives hobeys hready
  -- How much fuel there is makes no difference to a class statement.
  obtain ⟨n', rfl⟩ := hleaves
  have hleft : heapOf (execute (j.setting natives) (n' + 1) (.classDecl name superclass methods) p) =
      p'.heap := congrArg heapOf hrun
  rw [hleft] at hbehind
  obtain ⟨_, q, hdefine, hrun⟩ := Grammar.bind_ok_iff.mp hrun
  cases hrun
  rw [defineClass_eq] at hdefine
  obtain ⟨up, p₁, hup, hmake⟩ := Grammar.bind_ok_iff.mp hdefine
  obtain ⟨rfl, -⟩ := superclassOf_ok hup
  obtain ⟨-, -, -, -, hsome, hsize⟩ :=
    (Upholds.superclassOf hsound superclass).of_ok hup
  have hmethods := hnode.2
  rw [ClassKind.inside, ← hsome] at hmethods
  obtain ⟨-, hsound', -, c, hc, hrealizes⟩ := (Upholds.makeClass (σ := j.setting natives)
    ⟨hsound, hcode, haround⟩ ⟨_, k, hnode.lawful, rfl⟩ hsize hmethods).of_ok hmake
  exact ⟨hsound', hbehind, up, c, hup, hc, hrealizes⟩

end

/-! ### Methods -/

section

variable {law : Law} {σ : Setting} {p : Machine} {ref : Reference} {x f c m o s : Address}

/-- `this` in an activation, if its distance is that of the nearest receiver. -/
theorem Eval.evaluate_this (hsound : p.heap.Sound law) (hx : p.heap.Activation x f c m o)
    (hin : p.heap.Within x p.current) (hname : ref.name.lexeme = receiverName)
    (hlookup : σ.distances.lookup ref.id = (p.heap.chain p.current).findIdx? p.heap.HoldsReceiver)
    (n : Nat) : evaluate σ (n + 1) (.this ref) p = .ok (.object o) p := by
  obtain ⟨d, hd, hthis, -⟩ := hx.found hsound hin
  change lookUp σ ref p = _
  rw [lookUp_eq, hlookup, hd, hname]
  dsimp only
  rw [hthis]
  rfl

/-- `super` in an activation, if its distance is that of the nearest superclass. -/
theorem Eval.evaluate_super (hsound : p.heap.Sound law) (hsuper : ¬law.Writes superclassName)
    (hx : p.heap.Activation x f c m o) (hin : p.heap.Within x p.current)
    (hs : (p.heap.classObject c).superclass = some s)
    (hlookup : σ.distances.lookup ref.id =
      (p.heap.chain p.current).findIdx? p.heap.HoldsSuperclass) (method : Token) (n : Nat) :
    GivesMethod p s o method (evaluate σ (n + 1) (.super ref method) p) := by
  obtain ⟨d, -, hthis, hsuperclass⟩ := hx.found hsound hin
  obtain ⟨hd, hclass⟩ := hsuperclass s hs hsuper
  change GivesMethod p s o method (superMethod σ ref method p)
  rw [superMethod_eq (hlookup.trans hd) hclass hthis]
  rcases hsound.findMethod?_cases s method.lexeme with ⟨d, found, hinherits, hfound⟩ | ⟨hlacks, hfound⟩
  · have hsize := Nat.lt_trans (hsound.superclass_lt hs) hx.bound.method.size
    obtain ⟨g, q, hbind⟩ : ∃ g q, bindMethod found (.object o) p = .ok g q := ⟨_, _, rfl⟩
    obtain ⟨-, -, -, -, hbound⟩ := (Upholds.bindMethod (σ := σ) hsound
      (hinherits.declares hsound hsize) hx.bound.object).of_ok hbind
    have hrun : (do return Value.function (← bindMethod found (.object o))) p =
        .ok (.function g) q := Grammar.bind_of_ok hbind
    rw [hfound, Option.elim_some, hrun]
    exact .found hinherits hbound
  · rw [hfound]
    exact .missing hlacks

end

/-! ### Bodies -/

section

variable {α β : Type} {σ : Setting} {m p q : Machine} {ref : Reference} {paren : Token} {f : Address}
  {e : Expr} {rest : List Stmt} {fault : Fault}

theorem Eval.map_of_error {x : Eval α} {g : α → β} (h : x p = .error fault q) :
    (g <$> x) p = .error fault q := by
  change EStateM.map g x p = _
  rw [EStateM.map, h]

/-- A call of a name without arguments comes to what the body of the function starts with. -/
theorem Eval.reaches_body (hlookUp : lookUp σ ref m = .ok (.function f) m)
    (hparams : (m.heap.function f).decl.params = [])
    (hbody : (m.heap.function f).decl.body = .expr e :: rest) (n : Nat) :
    Reaches (fun see => evaluateWatched see σ (n + 3) (.call (.ident ref) paren [])) m (.expr e)
      { m with heap := m.heap.opened f [], current := m.heap.frames.size } := by
  intro fault
  refine ⟨{ m with heap := m.heap.opened f [] }, ?_⟩
  generalize hp : ({ m with heap := m.heap.opened f [], current := m.heap.frames.size } : Machine) = p
  have hne : m ≠ p := by
    intro h
    have hsize := congrArg (·.heap.frames.size) (h.trans hp.symm)
    rw [Heap.opened, Heap.frames_size_addFrame] at hsize
    exact Nat.ne_of_lt (Nat.lt_succ_self _) hsize
  have hsee : ∀ node, stopAt (.expr e) p fault node m = .ok () m :=
    fun node => stopAt_of_ne fun h => hne h.2
  have hcallee : evaluateWatched (stopAt (.expr e) p fault) σ (n + 2) (.ident ref) m =
      .ok (.function f) m := (Grammar.bind_of_ok (hsee _)).trans hlookUp
  have hrun : executeAll (executeWatched (stopAt (.expr e) p fault) σ (n + 2)) (.expr e :: rest) p =
      .error fault p := by
    refine Grammar.bind_of_error ?_
    refine (Grammar.bind_of_ok (stopAt_of_ne ?_)).trans (Grammar.bind_of_error ?_)
    · rintro ⟨⟨⟩, -⟩
    · exact Grammar.bind_of_error stopAt_self
  have hframe : callBody (executeAll (executeWatched (stopAt (.expr e) p fault) σ (n + 2))) f [] m =
      .error fault { m with heap := m.heap.opened f [] } := by
    rw [callBody_eq, hparams, hbody]
    change inFrame m.heap.frames.size _ { m with heap := m.heap.opened f [] } = _
    rw [inFrame, hp, hrun, ← hp]
  have hcall : callFunction (executeAll (executeWatched (stopAt (.expr e) p fault) σ (n + 2))) f []
      paren.line m = .error fault { m with heap := m.heap.opened f [] } := by
    rw [callFunction_eq]
    exact (Grammar.bind_of_ok rfl).trans (Grammar.bind_of_error hframe)
  have harity : [].length = (m.heap.function f).arity := (congrArg List.length hparams).symm
  refine (Grammar.bind_of_ok (hsee _)).trans ?_
  refine (Grammar.bind_of_ok hcallee).trans ((Grammar.bind_of_ok rfl).trans ?_)
  exact (Grammar.bind_of_ok rfl).trans ((congrFun (if_pos harity) m).trans hcall)

/-- What a function without parameters evaluates first, if this is `super`. -/
def FunctionDecl.super? : FunctionDecl → Option (Reference × Token)
  | .mk _ _ [] (.expr (.super ref method) :: _) => some (ref, method)
  | _ => none

theorem FunctionDecl.of_super? {d : FunctionDecl} {method : Token}
    (h : d.super? = some (ref, method)) :
    d.params = [] ∧ ∃ rest, d.body = .expr (.super ref method) :: rest := by
  unfold super? at h
  split at h
  · cases h
    exact ⟨rfl, _, rfl⟩
  · cases h

/-- What an expression that is a step of its own comes to is come to. -/
theorem Session.comes_expression {s : Session} {natives : List Native} {r : Request} {j : Job}
    {node : Node} (hnatives : s.natives = natives) (hjob : s.job? r = some j)
    (hchunk : j.chunk = .expression e)
    (hreach : Reaches (fun see => evaluateWatched see (j.setting natives) r.fuel e) s.machine node p)
    (rs : List Request) : Machine.Comes natives s.machine (s.jobs (r :: rs)) j node p := by
  subst hnatives
  refine comes_now hjob (fun fault => ?_) rs
  obtain ⟨ch, -, -, rfl⟩ := job?_eq_some hjob
  cases hchunk
  obtain ⟨q, hq⟩ := hreach fault
  exact ⟨q, map_of_error hq⟩

end

/-- What `this` and `super` come to in the course of some jobs. -/
structure Machine.KeepsReceivers (natives : List Native) (m : Machine) (js : List Job) : Prop where
  /-- A class statement that ends without a fault has found its superclass, and has made a class of this
  and of its methods, which the class keeps for ever. -/
  classes : ∀ j name superclass methods p,
    m.Comes natives js j (.stmt (.classDecl name superclass methods)) p → ∀ n flow p',
      execute (j.setting natives) (n + 1) (.classDecl name superclass methods) p = .ok flow p' →
        ∃ up c, superclassOf (j.setting natives) superclass p = .ok up p ∧
          p.heap.classes.size ≤ c ∧ p'.heap.Realizes c up methods ∧
          ∀ q, m.Passes natives js q → c < q.heap.classes.size → q.heap.Realizes c up methods
  /-- A call of a bound method opens an activation, and a call of a function that was made in an activation
  belongs to it. -/
  opens : ∀ σ n f vs line q, m.Calls natives js σ n (.function f) vs line q → ∃ arguments,
    (∀ run, callBody run f vs q = inFrame q.heap.frames.size (run (q.heap.function f).decl.body)
      { q with heap := q.heap.opened f arguments }) ∧
    (∀ c method o, q.heap.Bound f c method o →
      (q.heap.opened f arguments).Activation q.heap.frames.size f c method o) ∧
    ∀ x, q.heap.Within x (q.heap.function f).closure →
      (q.heap.opened f arguments).Within x q.heap.frames.size
  this_active : ∀ j ref p, m.Comes natives js j (.expr (.this ref)) p →
    ∃ x f c method o, p.heap.Activation x f c method o ∧ p.heap.Within x p.current
  /-- In an activation `this` is the object that the method is bound to. -/
  this_value : ∀ j ref p, m.Comes natives js j (.expr (.this ref)) p →
    ∀ x f c method o, p.heap.Activation x f c method o → p.heap.Within x p.current →
      ∀ n, evaluate (j.setting natives) (n + 1) (.this ref) p = .ok (.object o) p
  super_active : ∀ j ref name p, m.Comes natives js j (.expr (.super ref name)) p →
    ∃ x f c method o, p.heap.Activation x f c method o ∧ p.heap.Within x p.current
  /-- In an activation `super` comes to the method that the superclass of the class of the method has or
  inherits, bound to the object, or to the fault that there is none. -/
  super_value : ∀ j ref name p, m.Comes natives js j (.expr (.super ref name)) p →
    ∀ x f c method o, p.heap.Activation x f c method o → p.heap.Within x p.current →
      ∃ s, (p.heap.classObject c).superclass = some s ∧
        ∀ n, GivesMethod p s o name (evaluate (j.setting natives) (n + 1) (.super ref name) p)
  later_active : ∀ p q, m.Passes natives js p → m.Passes natives js q → p.heap.NoLarger q.heap →
    ∀ x f c method o, p.heap.Activation x f c method o → q.heap.Activation x f c method o
  later_within : ∀ p q, m.Passes natives js p → m.Passes natives js q → p.heap.NoLarger q.heap →
    ∀ x a, p.heap.Within x a → q.heap.Within x a
  later_superclass : ∀ p q, m.Passes natives js p → m.Passes natives js q → p.heap.NoLarger q.heap →
    ∀ c < p.heap.classes.size, (q.heap.classObject c).superclass = (p.heap.classObject c).superclass
  later_method : ∀ p q, m.Passes natives js p → m.Passes natives js q → p.heap.NoLarger q.heap →
    ∀ c < p.heap.classes.size, ∀ name, q.heap.findMethod? c name = p.heap.findMethod? c name

/-- In a session that does not run out of identities, class statements make classes for ever. Wherever
the session comes to `this` or `super`, the current frame belongs to an activation, however deep and
however late, and the two are those of the activation. What is an activation at one moment is the same one
at any later moment, with all the frames that belong to it, and the classes then find the same methods. -/
theorem activations_keep_receivers {natives : List Native}
    (hnatives : ∀ native ∈ natives, native.Faithful) {output : Output} {rs : List Request}
    (hsize : Request.characters rs < UInt64.size) {m : Machine} {js : List Job}
    (hm : m = .initial natives output) (hjs : js = (Session.initial natives output).jobs rs) :
    m.KeepsReceivers natives js := by
  have hready : m.Ready .accepted := hm ▸ Machine.ready_initial _ _ _
  have hobeys : ∀ j ∈ js, j.chunk.Obeys .accepted := hjs ▸ Session.jobs_obey
  have hconserves : ∀ native ∈ natives, native.Conserves :=
    fun native hnative => (hnatives native hnative).conserves
  have hlater : ∀ p q, m.Passes natives js p → m.Passes natives js q → p.heap.NoLarger q.heap →
      p.heap.Sound .accepted ∧ q.heap.Sound .accepted ∧ p.heap.Grows .accepted q.heap := by
    intro p q hp hq hlarger
    obtain ⟨hsound, -, hle⟩ := hp.sound hconserves hobeys hready
    obtain ⟨hsound', -, hle'⟩ := hq.sound hconserves hobeys hready
    exact ⟨hsound, hsound', hle.of_noLarger hle' hlarger⟩
  subst hm hjs
  constructor
  case classes =>
    intro j name superclass methods p hcomes n flow p' hrun
    obtain ⟨hsound', hle', up, c, hup, hc, hrealizes⟩ :=
      hcomes.realizes hconserves hobeys hready hrun
    refine ⟨up, c, hup, hc, hrealizes, fun q hq hcq => ?_⟩
    obtain ⟨hsound, -, hle⟩ := hq.sound hconserves hobeys hready
    exact (hsound.realizes_iff hle hcq).mp ((hsound'.realizes_iff hle' hrealizes.size).mpr hrealizes)
  case opens =>
    intro σ n f vs line q hcalls
    obtain ⟨-, hsound, -⟩ := hcalls.sound hconserves hobeys hready
    exact ⟨_, fun run => callBody_eq run f vs q,
      fun c method o hbound => hbound.activation hsound Law.this_unwritten _,
      fun x hwithin => hwithin.opened _⟩
  case this_active =>
    intro j ref p hcomes
    obtain ⟨⟨hsound, hcode, k, haround, hnode⟩, -⟩ := hcomes.admits hconserves hobeys hready
    exact hsound.activation Law.this_unwritten hcode haround (hnode.lawful.this ref rfl).2
  case this_value =>
    intro j ref p hcomes x f c method o hx hin n
    obtain ⟨⟨hsound, -, k, -, hnode⟩, -⟩ := hcomes.admits hconserves hobeys hready
    obtain ⟨hname, -⟩ := hnode.lawful.this ref rfl
    obtain ⟨v, hv, hresolves, -⟩ := Session.resolves_of_comes hnatives hsize hcomes rfl
    refine evaluate_this hsound hx hin hname
      (hresolves.lookup_eq (Session.visits_tied v hv) (q := Origin.isReceiver) rfl ?_) n
    rw [hname]
    exact fun _ _ h => h.this
  case super_active =>
    intro j ref name p hcomes
    obtain ⟨⟨hsound, hcode, k, haround, hnode⟩, -⟩ := hcomes.admits hconserves hobeys hready
    obtain ⟨-, rfl⟩ := hnode.lawful.super ref name rfl
    exact hsound.activation Law.this_unwritten hcode haround (by rintro ⟨⟩)
  case super_value =>
    intro j ref name p hcomes x f c method o hx hin
    obtain ⟨⟨hsound, hcode, k, haround, hnode⟩, -⟩ := hcomes.admits hconserves hobeys hready
    obtain ⟨hname, rfl⟩ := hnode.lawful.super ref name rfl
    obtain ⟨v, hv, hresolves, -⟩ := Session.resolves_of_comes hnatives hsize hcomes rfl
    have hkind := Heap.Around.unique (hin.around (hx.around hsound)) haround
    cases hs : (p.heap.classObject c).superclass with
    | none =>
        rw [hs] at hkind
        cases hkind
    | some s =>
        refine ⟨s, rfl, evaluate_super hsound Law.super_unwritten hx hin hs ?_ name⟩
        refine hresolves.lookup_eq (Session.visits_tied v hv) (q := Origin.isSuperclass) rfl ?_
        rw [hname]
        exact fun _ _ h => h.super
  case later_active =>
    intro p q hp hq hlarger x f c method o hx
    obtain ⟨hsound, -, hpq⟩ := hlater p q hp hq hlarger
    exact hx.mono hsound Law.this_unwritten hpq
  case later_within =>
    intro p q hp hq hlarger x a ha
    exact ha.mono (hlater p q hp hq hlarger).2.2
  case later_superclass =>
    intro p q hp hq hlarger c hc
    rw [(hlater p q hp hq hlarger).2.2.classObject c hc]
  case later_method =>
    intro p q hp hq hlarger c hc name
    obtain ⟨hsound, hsound', hpq⟩ := hlater p q hp hq hlarger
    exact hsound.findMethod?_of_grows hsound' hpq hc name

/-- A bound method is kept, and calls a method that its class inherits by way of another. -/
theorem activations_keep_receivers_super :
    ∃ (m : Machine) (js : List Job) (j : Job) (ref : Reference) (name : Token) (p : Machine)
      (x f c method o s : Address), m = .initial [.clock 0] .unlimited ∧
      js = (Session.initial [.clock 0] .unlimited).jobs
        [.run 20 ("class C \x7b n() \x7b\x7d \x7d class B < C \x7b\x7d " ++
          "class A < B \x7b m() \x7b super.n; \x7d \x7d var f = A().m;"), .evaluate 9 "f()"] ∧
      m.Comes [.clock 0] js j (.expr (.super ref name)) p ∧
      p.heap.Activation x f c method o ∧ p.heap.Within x p.current ∧
      (p.heap.classObject c).superclass = some s ∧
      ∀ n, GivesMethod p s o name (evaluate (j.setting [.clock 0]) (n + 1) (.super ref name) p) := by
  have hrun : (((Session.initial [.clock 0] .unlimited).handle
      (.run 20 ("class C \x7b n() \x7b\x7d \x7d class B < C \x7b\x7d " ++
        "class A < B \x7b m() \x7b super.n; \x7d \x7d var f = A().m;"))).bind fun t =>
        (t.session.job? (.evaluate 9 "f()")).bind fun j => j.chunk.called?.bind fun c =>
          ((lookUp (j.setting [.clock 0]) c.1).run' t.session.machine).bind fun v =>
            ((t.session.machine.heap.function 2).decl.super?).map fun _ =>
              v.same (.function 2)) = some true := by decide +kernel
  obtain ⟨t, ht, hrun⟩ := Option.bind_eq_some_iff.mp hrun
  obtain ⟨j, hj, hrun⟩ := Option.bind_eq_some_iff.mp hrun
  obtain ⟨⟨callee, paren⟩, hcalled, hrun⟩ := Option.bind_eq_some_iff.mp hrun
  obtain ⟨v, hv, hrun⟩ := Option.bind_eq_some_iff.mp hrun
  obtain ⟨⟨ref, name⟩, hsuper, hsame⟩ := Option.map_eq_some_iff.mp hrun
  cases Value.eq_of_same_function hsame
  obtain ⟨q, hlookUp⟩ := ok_of_run' hv
  cases lookUp_ok hlookUp
  obtain ⟨hparams, rest, hbody⟩ := FunctionDecl.of_super? hsuper
  have hcomes := Session.comes_handled ht (Session.comes_expression (Session.natives_of_handle ht) hj
    (Chunk.eq_of_called? hcalled) (reaches_body hlookUp hparams hbody 6) [])
  have hsize : Request.characters
    [.run 20 ("class C \x7b n() \x7b\x7d \x7d class B < C \x7b\x7d " ++
      "class A < B \x7b m() \x7b super.n; \x7d \x7d var f = A().m;"), .evaluate 9 "f()"] <
        UInt64.size := by decide +kernel
  have hkeeps : Machine.KeepsReceivers [.clock 0] (.initial [.clock 0] .unlimited) _ :=
    activations_keep_receivers (Native.faithful_of_clock 0 _) hsize rfl rfl
  obtain ⟨x, f, c, method, o, hx, hin⟩ := hkeeps.super_active _ _ _ _ hcomes
  obtain ⟨s, hs, hgives⟩ := hkeeps.super_value _ _ _ _ hcomes x f c method o hx hin
  exact ⟨_, _, _, _, _, _, x, f, c, method, o, s, rfl, rfl, hcomes, hx, hin, hs, hgives⟩

end LoxLang
