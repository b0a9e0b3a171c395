import LoxLang.Proofs.Session.Jobs

/-!
Links in the heap. The heap as a whole has cycles: a function sits in the frame that it closes over, and
an instance in its own fields. The two sorts of links that look-ups follow have none. They lead to what
is older, and are as they were made ever after, whatever trees are run under whatever tables and however
the runs end. So every frame that anything refers to is some steps away from the globals, every class
some steps away from one without a superclass, and look-ups end.
-/

namespace LoxLang

open Scope Eval

namespace Heap

/-- Links lead from a frame to the globals, in finitely many steps. -/
inductive LeadsOut (h : Heap) : Address → Prop
  | globals (hlink : (h.frame globals).enclosing = none) : LeadsOut h globals
  | link {a b : Address} (hlink : (h.frame a).enclosing = some b) (hb : LeadsOut h b) : LeadsOut h a

/-- What refers to frames, functions and classes refers to such as exist; all frames lead out to the
globals, and no walk along superclasses goes on for ever. A search for a name or for a method that does
not end where it is goes on behind the link, and a number of links are followed one by one, so that no
search stops short of the end. -/
structure Rooted (h : Heap) : Prop where
  frames : ∀ a < h.frames.size, h.LeadsOut a
  closures : ∀ f < h.functions.size, h.LeadsOut (h.function f).closure
  bindings : ∀ a name f, (h.frame a).bindings.find? name = some (.function f) → f < h.functions.size
  fields : ∀ i name f, (h.instanceObject i).fields.find? name = some (.function f) →
    f < h.functions.size
  methods : ∀ c name f, (h.classObject c).methods.find? name = some f → f < h.functions.size
  superclasses : ∀ c up, (h.classObject c).superclass = some up → up < h.classes.size
  links_end : WellFounded fun b a => (h.frame a).enclosing = some b
  superclasses_end : WellFounded fun up c => (h.classObject c).superclass = some up
  locate : ∀ a name, h.locate a name =
    if (h.frame a).bindings.contains name then .ok a
    else match (h.frame a).enclosing with
      | some b => h.locate b name
      | none => .error (.undefinedVariable name)
  ancestor : ∀ a d, (h.chain a)[d + 1]? = (h.frame a).enclosing.bind fun b => (h.chain b)[d]?
  method : ∀ c name, h.findMethod? c name =
    match (h.classObject c).methods.find? name with
    | some f => some f
    | none => (h.classObject c).superclass.bind fun up => h.findMethod? up name

/-- Whatever is in both of two heaps has the same links in both: frames, functions with their closures
and classes with their superclasses and method tables. -/
structure SameLinks (h h' : Heap) : Prop where
  frames : ∀ a < h.frames.size, a < h'.frames.size →
    (h'.frame a).enclosing = (h.frame a).enclosing
  functions : ∀ f < h.functions.size, f < h'.functions.size → h'.function f = h.function f
  classes : ∀ c < h.classes.size, c < h'.classes.size → h'.classObject c = h.classObject c

variable {law : Law} {h h' h'' : Heap}

theorem Sound.leadsOut (hsound : h.Sound law) {a : Address} (ha : a < h.frames.size) :
    h.LeadsOut a := by
  induction a using Nat.strongRecOn with
  | ind a ih =>
      cases hsound.placed a ha with
      | globals haddress _ hlink =>
          subst haddress
          exact .globals hlink
      | block _ hlink hold | call _ hlink hold | receiver _ hlink hold | superclass _ hlink hold =>
          exact .link hlink (ih _ hold (Nat.lt_trans hold ha))

theorem Sound.rooted (hsound : h.Sound law) : h.Rooted where
  frames _ ha := hsound.leadsOut ha
  closures f hf := hsound.leadsOut (hsound.functions f hf).closure
  bindings a name f hf := Callable.size (hsound.values a name _ hf)
  fields i name f hf := Callable.size (hsound.fields i name _ hf)
  methods c name f hf := by
    refine ((hsound.classes c (Nat.lt_of_not_le fun hle => ?_)).methods name f hf).size
    rw [classObject_of_le hle] at hf
    cases hf
  superclasses c up hup := by
    refine Nat.lt_trans (hsound.superclass_lt hup) (Nat.lt_of_not_le fun hle => ?_)
    rw [classObject_of_le hle] at hup
    cases hup
  links_end := Subrelation.wf (fun hlink => hsound.linked _ _ hlink) Nat.lt_wfRel.wf
  superclasses_end := Subrelation.wf (fun hup => hsound.superclass_lt hup) Nat.lt_wfRel.wf
  locate a name := by
    rw [locate, chain_eq hsound.linked, List.find?_cons]
    cases (h.frame a).bindings.contains name with
    | true => rfl
    | false => cases (h.frame a).enclosing <;> rfl
  ancestor a d := by
    rw [chain_eq hsound.linked, List.getElem?_cons_succ]
    cases (h.frame a).enclosing <;> rfl
  method := hsound.findMethod?_eq

/-- Two heaps that come before one and the same have the same links. -/
theorem Grows.sameLinks (hle : h.Grows law h'') (hle' : h'.Grows law h'') : h.SameLinks h' where
  frames a ha ha' := (hle'.enclosing a ha').symm.trans (hle.enclosing a ha)
  functions f hf hf' := (hle'.function f hf').symm.trans (hle.function f hf)
  classes c hc hc' := (hle'.classObject c hc').symm.trans (hle.classObject c hc)

end Heap

section

variable {natives : List Native} {output : Output}

/-- In every machine that a host passes, the frames form a tree at whose root are the globals, and the
classes form trees by their superclasses; the current frame and all frames that functions close over are
in that tree, and look-ups follow it to its root. What exists at two moments has the same links at both.
A session is such a host, between its steps and within them. -/
theorem links_lead_out (hnatives : ∀ native ∈ natives, native.Conserves) (output : Output) :
    (∀ js p, (Machine.initial natives output).Passes natives js p →
      p.heap.Rooted ∧ p.heap.LeadsOut p.current ∧
        ∀ q, (Machine.initial natives output).Passes natives js q → p.heap.SameLinks q.heap) ∧
    ∀ s vs n, History natives output s vs n →
      s.machine.heap.Rooted ∧ s.machine.heap.LeadsOut s.machine.current ∧
      ∀ r ch, r.chunk? s.nextId = some ch → ch.Accepted → ∀ node p,
        Reaches (fun see => ch.watched see (s.entered r).setting r.fuel) s.machine node p →
          p.heap.Rooted ∧ p.heap.LeadsOut p.current ∧ s.machine.heap.SameLinks p.heap ∧
            ∀ t, s.handle r = some t → p.heap.SameLinks t.session.machine.heap := by
  have hready := Machine.ready_initial .any natives output
  have hpasses : ∀ js p, (Machine.initial natives output).Passes natives js p →
      p.heap.Sound .any ∧ p.heap.RunsCode p.current ∧
        p.heap.Grows .any ((Machine.initial natives output).after natives js).heap :=
    fun js p hp => hp.sound hnatives (fun j _ => j.chunk.obeys_any) hready
  constructor
  · intro js p hp
    obtain ⟨hsound, hcode, hle⟩ := hpasses js p hp
    refine ⟨hsound.rooted, hsound.leadsOut hcode.size, fun q hq => ?_⟩
    obtain ⟨-, -, hle'⟩ := hpasses js q hq
    exact hle.sameLinks hle'
  · intro s vs n h
    obtain ⟨js, hjs⟩ := h.jobs
    have hready : s.machine.Ready .any :=
      hjs ▸ (hready.after hnatives fun j _ => j.chunk.obeys_any).1
    refine ⟨hready.sound.rooted, hready.sound.leadsOut hready.code.size, ?_⟩
    intro r ch hch haccepted node p hreach
    have hnatives' : ∀ native ∈ s.natives, native.Conserves := h.natives_eq ▸ hnatives
    have hjob : s.job? r = some ⟨ch, (s.entered r).distances, r.fuel⟩ := by
      rw [Session.job?, hch]
      exact if_pos haccepted
    obtain ⟨hadmits, hbefore, left, -, hnode, hleft⟩ := Upholds.reaches
      (Job.upholds (j := ⟨ch, (s.entered r).distances, r.fuel⟩) hnatives' ch.obeys_any hready) hreach
    have hbehind := hnode.trans hleft
    refine ⟨hadmits.sound.rooted, hadmits.sound.leadsOut hadmits.code.size,
      (hbefore.trans hbehind).sameLinks hbehind, fun t ht => ?_⟩
    rw [Session.machine_of_handle ht, hjob]
    exact hbehind.sameLinks (.refl _ _)

/-- A function that sits in the frame that it closes over. -/
theorem links_lead_out_function :
    ∃ t, (Session.initial [.clock 0] .unlimited).handle (.run 9 "\x7b fun f() \x7b return f; \x7d \x7d") = some t ∧
      t.session.machine.heap.frames.size = 2 ∧
      t.session.machine.heap.LeadsOut (t.session.machine.heap.function 0).closure := by
  have hrun : ((Session.initial [.clock 0] .unlimited).handle
      (.run 9 "\x7b fun f() \x7b return f; \x7d \x7d")).map (fun t =>
        (t.session.machine.heap.frames.size, t.session.machine.heap.functions.size)) =
          some (2, 1) := by decide +kernel
  obtain ⟨t, ht, hsizes⟩ := Option.map_eq_some_iff.mp hrun
  obtain ⟨hframes, hfunctions⟩ := Prod.mk.inj hsizes
  obtain ⟨hrooted, -⟩ := (links_lead_out (Native.conserves_of_clock 0 _) .unlimited).2 _ _ _
    (.step .start ht)
  exact ⟨t, ht, hframes, hrooted.closures 0 (hfunctions ▸ Nat.zero_lt_one)⟩

end

end LoxLang
