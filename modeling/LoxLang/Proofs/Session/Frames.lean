import LoxLang.Proofs.Session.Receivers
import LoxLang.Proofs.Session.Tracks

/-!
The frames that code runs in and the scopes that it was written in. Wherever a session comes to a
reference, the frames outwards are as many as the scopes around the place where the walk visited it. Each
of them was opened for its scope, and in the surroundings of the code that runs: the block or the call in
progress has opened the innermost one, those further outwards were current where the function that is
called was made. So a reference with an entry is found in the frame of the nearest scope that declares
its name, and one without an entry in the globals or nowhere.
-/

namespace LoxLang

open Scope Eval

/-! ### Chains -/

section

variable {natives : List Native} {m p q r : Machine} {js : List Job} {j : Job} {node maker : Node}
  {fs between : List (Origin × Address)} {f : Address}

/-- Statements that run in a frame leave a later heap wherever they come to. -/
theorem Eval.grows_of_reaches {σ : Setting} {n : Nat} {ss : List Stmt} {k : ClassKind}
    (hnatives : ∀ native ∈ σ.natives, native.Conserves) (hstands : q.heap.Stands .accepted q.current k)
    (hobeys : ObeysStmts .accepted k ss)
    (h : Reaches (fun see => executeAll (executeWatched see σ n) ss) q node p) :
    q.heap.Grows .accepted p.heap := by
  have hruns : ∀ see, Upholds .accepted σ see q.heap q.current
      (executeAll (executeWatched see σ n) ss) (executeAll (executeWatched idle σ n) ss)
        (Upholds.FlowHas .accepted) := by
    intro see
    rw [(watched_idle σ n).2]
    exact Upholds.executeAll (Upholds.evaluates_executes hnatives n).2 _ _ k ss hstands hobeys
  exact (Upholds.reaches hruns h).2.1

namespace Heap

/-- From an address outwards there are these frames, and behind them those from another address on. -/
structure Outward (h : Heap) (a : Address) (fs : List (Origin × Address)) (b : Address) : Prop where
  chain : h.chain a = fs.map Prod.snd ++ h.chain b
  origins : ∀ f ∈ fs, (h.frame f.2).origin = f.1

variable {h h' : Heap} {a b c : Address}

theorem Outward.nil (h : Heap) (a : Address) : h.Outward a [] a :=
  ⟨rfl, List.forall_mem_nil _⟩

theorem Outward.cons {o : Origin} (hlinked : h.Linked) (horigin : (h.frame a).origin = o)
    (hlink : (h.frame a).enclosing = some b) (hfs : h.Outward b fs c) :
    h.Outward a ((o, a) :: fs) c where
  chain := by
    rw [chain_eq hlinked, hlink]
    exact congrArg (a :: ·) hfs.chain
  origins := List.forall_mem_cons.mpr ⟨horigin, hfs.origins⟩

theorem Outward.append {gs : List (Origin × Address)} (hfs : h.Outward a fs b)
    (hgs : h.Outward b gs c) : h.Outward a (fs ++ gs) c where
  chain := by rw [hfs.chain, hgs.chain, List.map_append, List.append_assoc]
  origins := List.forall_mem_append.mpr ⟨hfs.origins, hgs.origins⟩

/-- What is so on a later heap has been so as long as the first frame is there. -/
theorem Outward.before (hsound : h.Sound .accepted) (hsound' : h'.Sound .accepted)
    (hle : h.Grows .accepted h') (ha : a < h.frames.size) (hfs : h'.Outward a fs b) :
    h.Outward a fs b := by
  have hchain := hsound.chain_of_grows hsound' hle ha
  have hlt : ∀ x ∈ h'.chain a, x < h.frames.size :=
    fun x hx => Nat.lt_of_le_of_lt (mem_chain_le hsound'.linked hx) ha
  rw [hfs.chain, List.forall_mem_append] at hlt
  have hb : b < h.frames.size := by
    refine hlt.2 b ?_
    rw [chain_eq hsound'.linked]
    exact List.mem_cons_self
  constructor
  · rw [← hchain, hfs.chain, hsound.chain_of_grows hsound' hle hb]
  · intro f hf
    rw [← hle.origin f.2 (hlt.1 f.2 (List.mem_map_of_mem hf)), hfs.origins f hf]

/-- A frame that has been added is there on later heaps. -/
theorem Grows.added {law : Law} {o : Frame} (hle : (h.addFrame o).Grows law h') :
    (h'.frame h.frames.size).origin = o.origin ∧ (h'.frame h.frames.size).enclosing = o.enclosing := by
  have hsize : h.frames.size < (h.addFrame o).frames.size := by
    rw [frames_size_addFrame]
    exact Nat.lt_succ_self _
  rw [hle.origin _ hsize, hle.enclosing _ hsize, addFrame_new]
  exact ⟨rfl, rfl⟩

end Heap

theorem Node.Makes.later {law : Law} {h h' : Heap} (hmakes : maker.Makes r h f between)
    (hle : h.Grows law h') (hf : f < h.functions.size) : maker.Makes r h' f between :=
  hmakes.mono (hle.function f hf) fun a ha => ⟨hle.origin a ha, hle.enclosing a ha⟩

theorem Origin.eq_receiver {o : Origin} (h : o.isReceiver = true) : o = .receiver := by
  cases o <;> first | rfl | cases h

/-- From the frame that a function closes over, the frames lead to the one that was current where it was
made. -/
theorem Node.Makes.outward {h : Heap} (hlinked : h.Linked) (hmakes : maker.Makes r h f between) :
    h.Outward (h.function f).closure between r.current := by
  cases hmakes with
  | expression _ hfunction | statement _ hfunction | method _ _ hfunction =>
      rw [hfunction]
      exact .nil h _
  | inherited _ _ hfunction _ horigin hlink =>
      rw [hfunction]
      exact .cons hlinked horigin hlink (.nil h _)

namespace Machine

theorem Surrounded.comes (h : Surrounded natives m js node p fs) : ∃ j, Comes natives m js j node p := by
  cases h with
  | globals hcomes | block hcomes | call hcomes | method hcomes => exact ⟨_, hcomes⟩

variable (hnatives : ∀ native ∈ natives, native.Conserves)
  (hobeys : ∀ j ∈ js, j.chunk.Obeys .accepted) (hready : m.Ready .accepted)

include hnatives hobeys hready

/-- What the statements of a block come to is later than the frame of the block. -/
theorem Comes.block_grows {body : List Stmt} {n : Nat}
    (hblock : Comes natives m js j (.stmt (.block body)) q)
    (hruns : Reaches (fun see => executeAll (executeWatched see (j.setting natives) n) body)
      (q.inBlock body) node p) : (q.inBlock body).heap.Grows .accepted p.heap := by
  obtain ⟨⟨hsound, hcode, k, haround, hnode⟩, -⟩ := hblock.admits hnatives hobeys hready
  have hsound' := hsound.addFrame (hcode.placed_block body) nofun
  exact grows_of_reaches hnatives (.opened hsound' haround rfl rfl rfl) hnode.2 hruns

/-- What the body of a function comes to is later than the frame of the call. -/
theorem Calls.body_grows {n line : Nat} {vs : List Value}
    (hcalls : Calls natives m js (j.setting natives) n (.function f) vs line q)
    (hruns : Reaches (fun see => executeAll (executeWatched see (j.setting natives) n)
      (q.heap.function f).decl.body) (q.inCall f vs) node p) :
    (q.inCall f vs).heap.Grows .accepted p.heap := by
  obtain ⟨-, hsound, hf, hvs⟩ := hcalls.sound hnatives hobeys hready
  obtain ⟨k, haround, hdecl⟩ := hf.obeys
  have hsound' : (q.inCall f vs).heap.Sound .accepted :=
    hsound.addFrame (hf.placed _) fun _ v hv => hvs v (mem_of_find?_argumentBindings hv)
  exact grows_of_reaches hnatives (.opened hsound' haround rfl rfl rfl) hdecl.body hruns

/-- In the end, the surroundings of what evaluation has come to are still the frames outwards. -/
theorem Surrounded.after (h : Surrounded natives m js node p fs) :
    (m.after natives js).heap.Outward p.current fs Heap.globals := by
  obtain ⟨hend, -⟩ := hready.after hnatives hobeys
  have hlinked := hend.sound.linked
  induction h with
  | globals _ hcurrent =>
      rw [hcurrent]
      exact .nil _ _
  | block hcomes hblock hruns hcurrent _ ih =>
      obtain ⟨-, -, left, -, hnode, hbehind⟩ := hcomes.admits hnatives hobeys hready
      obtain ⟨horigin, hlink⟩ := ((hblock.block_grows hnatives hobeys hready hruns).trans
        (hnode.trans hbehind)).added
      rw [hcurrent]
      exact .cons hlinked horigin hlink ih
  | @call _ _ _ f vs _ _ _ q _ _ _ _ hcomes hcalls hruns hcurrent _ hmakes _ ih =>
      obtain ⟨-, -, left, -, hnode, hbehind⟩ := hcomes.admits hnatives hobeys hready
      have hopened := (hcalls.body_grows hnatives hobeys hready hruns).trans (hnode.trans hbehind)
      have hle := (q.heap.grows_opened .accepted f _).trans hopened
      obtain ⟨-, -, hf, -⟩ := hcalls.sound hnatives hobeys hready
      have hclosure := (hmakes.later hle hf.size).outward hlinked
      obtain ⟨horigin, hlink⟩ := hopened.added
      rw [hle.function f hf.size] at hclosure
      rw [hcurrent]
      exact .cons hlinked horigin hlink (hclosure.append ih)
  | @method _ _ _ f c g o vs _ _ _ q _ _ _ _ hcomes hcalls hruns hcurrent hbound _ hmakes _ ih =>
      obtain ⟨-, -, left, -, hnode, hbehind⟩ := hcomes.admits hnatives hobeys hready
      have hopened := (hcalls.body_grows hnatives hobeys hready hruns).trans (hnode.trans hbehind)
      have hle := (q.heap.grows_opened .accepted f _).trans hopened
      obtain ⟨-, hsound, hf, -⟩ := hcalls.sound hnatives hobeys hready
      have hclosure := (hmakes.later hle (hbound.method_lt hsound)).outward hlinked
      have hreceiver := hbound.mono hsound Law.this_unwritten hle
      obtain ⟨horigin, hlink⟩ := hopened.added
      have hbetween := hclosure.cons hlinked (Origin.eq_receiver hreceiver.receiver) hreceiver.link
      rw [hle.function f hf.size] at hbetween
      rw [hcurrent]
      exact .cons hlinked horigin hlink (hbetween.append ih)

/-- The surroundings of what evaluation comes to are the frames outwards. -/
theorem Surrounded.outward (h : Surrounded natives m js node p fs) :
    p.heap.Outward p.current fs Heap.globals := by
  obtain ⟨j, hcomes⟩ := h.comes
  obtain ⟨hadmits, -, left, -, hnode, hbehind⟩ := hcomes.admits hnatives hobeys hready
  obtain ⟨hend, -⟩ := hready.after hnatives hobeys
  have hafter := h.after hnatives hobeys hready
  exact hafter.before hadmits.sound hend.sound (hnode.trans hbehind) hadmits.code.size

end Machine

end

/-! ### Moments -/

/-- What holds where a job comes to a reference that the walk has visited. The frames outwards are those
of the scopes around the visit, and they surround the code that runs: each of them is the frame of its
scope in the block, the call or the class statement in which this code was made. An assignment is made in
the same frames after its value has been evaluated. -/
structure Moment (natives : List Native) (m : Machine) (js : List Job) (j : Job) (node : Node)
    (p : Machine) (ref : Reference) (v : Visit) : Prop extends Resolves (j.setting natives) p ref v where
  surrounded : ∃ as, p.heap.chain p.current = as ++ [Heap.globals] ∧
    m.Surrounded natives js node p (v.origins.zip as)
  assigned : ∀ value, node = .expr (.assign ref value) → ∀ k w p',
    evaluate (j.setting natives) k value p = .ok w p' →
      p'.current = p.current ∧ p'.heap.chain p'.current = p.heap.chain p.current ∧
        Resolves (j.setting natives) p' ref v

section

variable {natives : List Native} {m p p' : Machine} {js : List Job} {j : Job} {node : Node}
  {ref : Reference} {v : Visit} {fs : List (Origin × Address)}

/-- Where a reference resolves, the surroundings are the scopes of the visit with their frames. -/
theorem Resolves.surroundings {σ : Setting} (h : Resolves σ p ref v) (hsound : p.heap.Sound .accepted)
    (hfs : p.heap.Outward p.current fs Heap.globals) : v.origins.zip (fs.map Prod.snd) = fs := by
  have horigins : fs.map Prod.fst = v.origins := by
    have hframes := h.frames
    rw [hfs.chain, hsound.chain_globals, List.map_append, List.map_map] at hframes
    refine .trans ?_ (List.append_inj_left' hframes rfl)
    exact List.map_congr_left fun f hf => (hfs.origins f hf).symm
  rw [← horigins, ← List.unzip_fst, ← List.unzip_snd, List.zip_unzip]

/-- A value is evaluated with the frames outwards left in place. -/
theorem Machine.Comes.assigned {value : Expr} {k : Nat} {w : Value}
    (hcomes : Comes natives m js j (.expr (.assign ref value)) p)
    (hnatives : ∀ native ∈ natives, native.Conserves) (hobeys : ∀ j ∈ js, j.chunk.Obeys .accepted)
    (hready : m.Ready .accepted) (hrun : evaluate (j.setting natives) k value p = .ok w p') :
    p'.current = p.current ∧ p'.heap.chain p'.current = p.heap.chain p.current := by
  obtain ⟨⟨hsound, hcode, kind, haround, hnode⟩, -⟩ := hcomes.admits hnatives hobeys hready
  obtain ⟨hle, hsound', hcurrent, -⟩ := ((Upholds.evaluates_executes (σ := j.setting natives) hnatives
    k).1 _ _ kind value ⟨hsound, hcode, haround⟩ hnode.2).of_ok hrun
  rw [hcurrent]
  exact ⟨rfl, hsound.chain_of_grows hsound' hle hcode.size⟩

/-- Whenever a session comes to a reference, the frames outwards are those of the scopes around the
place where the walk visited it, and the globals, each opened for its scope in the activation that the
running code was made in; the reference is found in the frame of the nearest scope that has its name, or
in the globals if none has it. No step ends with a fault of a chain that is too short or of a `super`
that is out of place. -/
theorem frames_follow_scopes (hnatives : ∀ native ∈ natives, native.Faithful) {output : Output}
    {rs : List Request} (hsize : Request.characters rs < UInt64.size)
    (hm : m = .initial natives output) (hjs : js = (Session.initial natives output).jobs rs) :
    (∀ j node p ref, m.Comes natives js j node p → node.reference? = some ref →
      ∃ v ∈ (Session.initial natives output).visits rs, Moment natives m js j node p ref v) ∧
    ∀ ps, (Session.initial natives output).passages rs = some ps → ∀ passage ∈ ps,
      ∀ line d, ∀ report ∈ passage.step.reports, report ≠ .runtime line (.chainTooShort d) ∧
        report ≠ .runtime line .unresolvedSuper ∧ report ≠ .runtime line .malformedSuper := by
  have hready : m.Ready .accepted := hm ▸ Machine.ready_initial _ _ _
  have hobeys : ∀ j ∈ js, j.chunk.Obeys .accepted := hjs ▸ Session.jobs_obey
  have hconserves : ∀ native ∈ natives, native.Conserves :=
    fun native hnative => (hnatives native hnative).conserves
  subst hm hjs
  constructor
  · intro j node p ref hcomes href
    obtain ⟨v, hv, hresolves, hassigned⟩ := Session.resolves_of_comes hnatives hsize hcomes href
    obtain ⟨fs, hfs⟩ := hcomes.surrounded hconserves hobeys hready rfl rfl
    obtain ⟨hadmits, -⟩ := hcomes.admits hconserves hobeys hready
    have hout := hfs.outward hconserves hobeys hready
    refine ⟨v, hv, ⟨hresolves, ⟨fs.map Prod.snd, ?_, ?_⟩, ?_⟩⟩
    · rw [hout.chain, hadmits.sound.chain_globals]
    · rw [hresolves.surroundings hadmits.sound hout]
      exact hfs
    · rintro value rfl k w p' hrun
      obtain ⟨hcurrent, hchain⟩ := hcomes.assigned hconserves hobeys hready hrun
      exact ⟨hcurrent, hchain, hassigned value rfl k w p' hrun⟩
  · intro ps hps passage hmem line d report hreport
    obtain ⟨vs, n, h, hle, hstep⟩ := History.of_mem_passages .start hps hmem
    have hroom : n + passage.request.text.length < UInt64.size :=
      Nat.lt_of_le_of_lt hle (by rwa [Nat.zero_add])
    have hnever : ∀ {cause : RuntimeCause}, cause.isInternal = true →
        (∀ name d, cause ≠ .missingAtDistance name d) → report ≠ .runtime line cause := by
      rintro cause hinternal hother rfl
      obtain ⟨v, -, -, -, d, -, hcause⟩ :=
        missing_in_own_initializer hnatives h hroom hstep hinternal hreport
      exact hother _ _ hcause
    exact ⟨hnever rfl (by rintro _ _ ⟨⟩), hnever rfl (by rintro _ _ ⟨⟩), hnever rfl (by rintro _ _ ⟨⟩)⟩

/-- The body of a closure that a method of a derived class has made and given away: around it are the
frames of its call, of the call of the method, of the receiver and of the superclass. -/
theorem frames_follow_scopes_closure :
    ∃ (m : Machine) (js : List Job) (j : Job) (ref : Reference) (name : Token) (p : Machine) (v : Visit),
      m = .initial [.clock 0] .unlimited ∧
      js = (Session.initial [.clock 0] .unlimited).jobs
        [.run 20 ("class B \x7b n() \x7b\x7d \x7d class A < B \x7b m() \x7b " ++
          "return fun () \x7b super.n; \x7d; \x7d \x7d var f = A().m();"), .evaluate 9 "f()"] ∧
      m.Comes [.clock 0] js j (.expr (.super ref name)) p ∧ (p.heap.chain p.current).length = 5 ∧
      Moment [.clock 0] m js j (.expr (.super ref name)) p ref v := by
  have hrun : (((Session.initial [.clock 0] .unlimited).handle
      (.run 20 ("class B \x7b n() \x7b\x7d \x7d class A < B \x7b m() \x7b " ++
        "return fun () \x7b super.n; \x7d; \x7d \x7d var f = A().m();"))).bind fun t =>
        (t.session.job? (.evaluate 9 "f()")).bind fun j => j.chunk.called?.bind fun c =>
          ((lookUp (j.setting [.clock 0]) c.1).run' t.session.machine).bind fun v =>
            ((t.session.machine.heap.function 3).decl.super?).map fun _ =>
              (v.same (.function 3), ((t.session.machine.heap.opened 3 []).chain
                t.session.machine.heap.frames.size).length)) = some (true, 5) := by decide +kernel
  obtain ⟨t, ht, hrun⟩ := Option.bind_eq_some_iff.mp hrun
  obtain ⟨j, hj, hrun⟩ := Option.bind_eq_some_iff.mp hrun
  obtain ⟨⟨callee, paren⟩, hcalled, hrun⟩ := Option.bind_eq_some_iff.mp hrun
  obtain ⟨w, hw, hrun⟩ := Option.bind_eq_some_iff.mp hrun
  obtain ⟨⟨ref, name⟩, hsuper, hrun⟩ := Option.map_eq_some_iff.mp hrun
  obtain ⟨hsame, hlength⟩ := Prod.mk.inj hrun
  cases Value.eq_of_same_function hsame
  obtain ⟨q, hlookUp⟩ := ok_of_run' hw
  cases lookUp_ok hlookUp
  obtain ⟨hparams, rest, hbody⟩ := FunctionDecl.of_super? hsuper
  have hcomes := Session.comes_handled ht (Session.comes_expression (Session.natives_of_handle ht) hj
    (Chunk.eq_of_called? hcalled) (reaches_body hlookUp hparams hbody 6) [])
  obtain ⟨v, -, hmoment⟩ := (frames_follow_scopes (Native.faithful_of_clock 0 _) (by decide +kernel)
    rfl rfl).1 _ _ _ _ hcomes rfl
  exact ⟨_, _, j, ref, name, _, v, rfl, rfl, hcomes, hlength, hmoment⟩

end

end LoxLang
