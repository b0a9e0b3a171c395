import LoxLang.Proofs.Session.Lockstep
import LoxLang.Proofs.Session.Passages

/-!
Moments of a session. A session is in lockstep with itself, and so is every moment at which it comes to
a node of a tree that it runs. The frames outwards from such a moment are those of the scopes around a
visit of the node's reference, innermost first.
-/

namespace LoxLang

open Scope Eval

/-! ### Sessions and themselves -/

theorem Native.find?_bindings {natives : List Native} {name : String} {v : Value}
    (h : (bindings natives).find? name = some v) : ∃ i, v = .native i := by
  have key : ∀ (ps : List (Native × Nat)) (b : Bindings Value),
      (∀ v, b.find? name = some v → ∃ i, v = .native i) → ∀ v,
        (ps.foldl (fun b p => b.insert p.1.name (.native p.2)) b).find? name = some v →
          ∃ i, v = .native i := by
    intro ps
    induction ps with
    | nil => exact fun _ hb => hb
    | cons p ps ih =>
        intro b hb
        refine ih _ fun v hv => ?_
        rw [Bindings.find?_insert] at hv
        split at hv
        · cases hv
          exact ⟨p.2, rfl⟩
        · exact hb v hv
  exact key _ [] nofun v h

/-- The world of a machine that has run nothing, twice over. -/
def World.initial (natives : List Native) : World where
  left := (Machine.initial natives .unlimited).heap
  right := (Machine.initial natives .unlimited).heap
  rename _ := .refl _

theorem World.frame_initial (natives : List Native) (a : Address) :
    (initial natives).left.frame a = if a = Heap.globals then
      ⟨Native.bindings natives, none, .globals⟩ else ⟨[], none, .globals⟩ := by
  cases a with
  | zero => rfl
  | succ a => rfl

theorem World.good_initial (K : Layers → Reference → Reference → Prop) (L : Nat → Nat → Prop)
    (natives : List Native) : (initial natives).Good K L := by
  have hplain : ∀ a, ((initial natives).left.frame a).enclosing = none ∧
      ((initial natives).left.frame a).origin = .globals := by
    intro a
    rw [frame_initial]
    split <;> exact ⟨rfl, rfl⟩
  refine ⟨?_, ⟨rfl, fun _ => ⟨rfl, rfl⟩⟩, ⟨rfl, nofun, nofun⟩, ⟨rfl, nofun, nofun⟩⟩
  constructor
  case frames_size | outermost | global_names | global_origin => rfl
  case bindings => exact fun a => (Bindings.rename_id _).symm
  case enclosing => exact fun _ => rfl
  case linked =>
    intro a b hb
    cases (hplain a).1.symm.trans hb
  case globals => exact Nat.zero_lt_one
  case values =>
    intro a name v hv
    rw [frame_initial] at hv
    split at hv
    · obtain ⟨i, rfl⟩ := Native.find?_bindings hv
      trivial
    · cases hv
  case receiver =>
    intro a _ horigin
    cases (hplain a).2.symm.trans horigin
  case superclass =>
    intro a _ horigin
    cases (hplain a).2.symm.trans horigin
  case hangs =>
    intro a _
    rw [(hplain a).2]
    trivial

theorem Session.inStep_initial (N : String → String → Prop) (natives : List Native)
    (output : Output) : (initial natives output).InStep N [] 0 (.initial natives)
      (initial natives output) where
  good := World.good_initial _ _ natives
  machines := ⟨rfl, rfl, rfl, rfl, rfl, rfl⟩
  natives := rfl
  distances := rfl
  nextId := rfl
  tabled := ⟨Nat.le_refl 0, nofun, nofun, nofun⟩

section

variable {natives : List Native} {output : Output} {s : Session} {vs : List Visit} {n : Nat}
  {r : Request} {name fresh : String}

theorem History.natives_eq (h : History natives output s vs n) : s.natives = natives := by
  induction h with
  | start => rfl
  | step _ hstep ih =>
      exact (Session.natives_of_handle hstep).trans ih

/-- A session that has read few enough characters is in lockstep with itself. -/
theorem History.inStep (hnames : (⟨[], name, fresh⟩ : Renaming).OfVariables)
    (hnatives : ∀ native ∈ natives, native.Faithful) (h : History natives output s vs n)
    (hsize : n < UInt64.size) : ∃ W, s.InStep (Renaming.Maps ⟨[], name, fresh⟩) vs n W s := by
  induction h with
  | start => exact ⟨_, Session.inStep_initial _ natives output⟩
  | @step s vs n r t h hstep ih =>
      obtain ⟨W, hself⟩ := ih (Nat.lt_of_le_of_lt (Nat.le_add_right n _) hsize)
      have hlock := hself.handle hnames (h.natives_eq ▸ hnatives) hsize (.same r)
      rw [hstep] at hlock
      cases hlock with
      | some halike => exact halike.session

/-- A session in lockstep with itself runs an accepted chunk in lockstep with itself. -/
theorem Session.InStep.runs {W : World} {ch : Chunk}
    (h : s.InStep (Renaming.Maps ⟨[], name, fresh⟩) vs n W s)
    (hnames : (⟨[], name, fresh⟩ : Renaming).OfVariables) (hroom : r.Room s.nextId)
    (hch : r.chunk? s.nextId = some ch) (haccepted : ch.Accepted) :
    (s.entered r).InStep (Renaming.Maps ⟨[], name, fresh⟩) (vs ++ r.visits s.nextId)
        (n + r.text.length) W (s.entered r) ∧
      ch.Alike (Placed (· ∈ vs ++ r.visits s.nextId) (Renaming.Maps ⟨[], name, fresh⟩)) Eq ch := by
  obtain ⟨hspelled, hnumbered⟩ := hroom.chunk_read hch
  have htable : ∀ v ∈ ch.visits, ch.findings.distances.lookup v.ref.id = v.distance? := by
    rw [ch.distances_eq]
    exact lookup_entries hnumbered.distinct
  have hvariables : Renaming.OfVariables ⟨ch.findings.distances, name, fresh⟩ :=
    ⟨hnames.name, hnames.fresh⟩
  obtain ⟨halike, -, -⟩ := ch.renames_self.resolved hvariables htable hspelled haccepted
  refine ⟨h.enter r r hroom rfl rfl, halike.imp ?_⟩
  rintro Γ ref ref' ⟨hid, hline, hname, hnames, hvisited⟩
  refine ⟨hid, hline, hname, hnames, List.mem_append_right _ ?_⟩
  rwa [Request.visits_of_accepted hch haccepted]

theorem Session.InStep.running {W : World} {ch : Chunk}
    (h : s.InStep (Renaming.Maps ⟨[], name, fresh⟩) vs n W s)
    (hnames : (⟨[], name, fresh⟩ : Renaming).OfVariables) (hsize : n + r.text.length < UInt64.size)
    (hch : r.chunk? s.nextId = some ch) (haccepted : ch.Accepted) :
    (s.entered r).InStep (Renaming.Maps ⟨[], name, fresh⟩) (vs ++ r.visits s.nextId)
        (n + r.text.length) W (s.entered r) ∧
      ch.Alike (Placed (· ∈ vs ++ r.visits s.nextId) (Renaming.Maps ⟨[], name, fresh⟩)) Eq ch :=
  h.runs hnames (h.tabled.room hsize) hch haccepted

end

/-! ### Moments -/

/-- A frame is what frames of an origin are: the frame of a call is inside the frame that a function of
this declaration closes over, and those around methods hold an object or a class. -/
def Heap.OpenedFor (h : Heap) (f : Address) : Origin → Prop
  | .globals => True
  | .block _ => True
  | .call d => ∃ g < h.functions.size, (h.function g).decl = d ∧
    (h.frame f).enclosing = some (h.function g).closure
  | .receiver => (∃ g < h.functions.size, (h.frame f).enclosing = some (h.function g).closure) ∧
    ∃ i < h.instances.size, (h.frame f).bindings = [(receiverName, .object i)]
  | .superclass => ∃ c < h.classes.size, (h.frame f).bindings = [(superclassName, .classRef c)]

/-- The node that a run of a chunk comes to first. -/
def Chunk.first? : Chunk → Option Node
  | .program [] => none
  | .program (s :: _) => some (.stmt s)
  | .expression e => some (.expr e)

theorem Chunk.reaches_first {ch : Chunk} {node : Node} (h : ch.first? = some node) (σ : Setting)
    (fuel : Nat) (m : Machine) :
    Reaches (fun see => ch.watched see σ (fuel + 1)) m node m := by
  intro fault
  refine ⟨m, ?_⟩
  cases ch with
  | expression e =>
      cases h
      change EStateM.map _ (EStateM.bind (stopAt _ m fault _) _) m = _
      rw [EStateM.map, EStateM.bind, stopAt_self]
  | program ss =>
      cases ss with
      | nil => cases h
      | cons s rest =>
          cases h
          change EStateM.map _ (EStateM.bind (EStateM.bind (stopAt _ m fault _) _) _) m = _
          rw [EStateM.map, EStateM.bind, EStateM.bind, stopAt_self]

/-- What holds where evaluation comes to a reference that the walk has visited. The frames outwards
are as many as the scopes around the visit, and the globals, and each was opened for its scope. The
reference is found in the frame of the nearest scope that has its name, if there is one, and in the
globals if there is none. -/
structure Resolves (σ : Setting) (m : Machine) (ref : Reference) (v : Visit) : Prop where
  reference : v.ref = ref
  length : (m.heap.chain m.current).length = v.scopes.length + 1
  frames : (m.heap.chain m.current).map (fun f => (m.heap.frame f).origin) = v.origins ++ [.globals]
  outermost : (m.heap.chain m.current).getLast? = some Heap.globals
  opened : ∀ f ∈ m.heap.chain m.current, m.heap.OpenedFor f (m.heap.frame f).origin
  entry : σ.distances.lookup ref.id = v.scopes.findIdx? (·.contains ref.name.lexeme)
  /-- A name that is declared but not ready may be missing from its frame. -/
  bound : ∀ d, v.distance? = some d → ∃ f, (m.heap.chain m.current)[d]? = some f ∧
    (locate σ ref m = .ok f m ∨ v.Early ∧
      locate σ ref m = .error (.runtime ⟨ref.name.line, .missingAtDistance ref.name.lexeme d⟩) m)
  unbound : v.distance? = none → locate σ ref m = .ok Heap.globals m ∨
    locate σ ref m = .error (.runtime ⟨ref.name.line, .undefinedVariable ref.name.lexeme⟩) m

section

variable {K : Layers → Reference → Reference → Prop} {L : Nat → Nat → Prop} {W : World}
  {Γ : Layers} {ref : Reference} {σ : Setting} {m : Machine} {a f : Address}

theorem World.Matches.getLast?_chain (hgood : W.Good K L) (h : W.Matches a Γ) :
    (W.left.chain a).getLast? = some Heap.globals := by
  induction Γ generalizing a with
  | nil =>
      cases h
      rw [hgood.chain_globals]
      rfl
  | cons l Γ ih =>
      obtain ⟨-, b, hb, hmatches⟩ := h
      rw [Heap.chain_eq hgood.linked, hb, List.getLast?_cons, ih hmatches]
      rfl

theorem World.Matches.size_of_mem_chain (hgood : W.Good K L) (h : W.Matches a Γ)
    (hf : f ∈ W.left.chain a) : f < W.left.frames.size := by
  induction Γ generalizing a with
  | nil =>
      cases h
      rw [hgood.chain_globals, List.mem_singleton] at hf
      exact hf ▸ hgood.globals
  | cons l Γ ih =>
      obtain ⟨hfits, b, hb, hmatches⟩ := h
      rw [Heap.chain_eq hgood.linked, hb, List.mem_cons] at hf
      rcases hf with rfl | hf
      · exact hfits.size
      · exact ih hmatches hf

theorem World.Good.openedFor (hgood : W.Good K L) (hsize : f < W.left.frames.size) :
    W.left.OpenedFor f (W.left.frame f).origin := by
  have hhangs := hgood.hangs f hsize
  have hreceiver := hgood.receiver f hsize
  have hsuperclass := hgood.superclass f hsize
  cases horigin : (W.left.frame f).origin with
  | globals => trivial
  | block body => trivial
  | call d =>
      rw [horigin] at hhangs
      exact hhangs
  | receiver =>
      rw [horigin] at hhangs
      exact ⟨hhangs, (hreceiver horigin).2⟩
  | superclass => exact (hsuperclass horigin).2

/-- Where the frames outwards fit some layers, they are those of a visit in these layers. -/
theorem World.Matches.resolves (hgood : W.Good K L) (h : W.Matches m.current Γ)
    (hheap : m.heap = W.left) {v : Visit} (href : v.ref = ref)
    (hscopes : v.scopes.length = Γ.length) (horigins : v.origins = Γ.origins)
    (hdistance : v.distance? = Γ.distance? ref.name.lexeme)
    (hearly : ∀ d, Γ.Early ref.name.lexeme d → v.Early)
    (hentry : σ.distances.lookup ref.id = v.distance?) : Resolves σ m ref v := by
  have hchain := h.chain hgood
  constructor
  case reference => exact href
  case length =>
    rw [hheap, ← List.length_map (f := fun f => (W.left.frame f).origin), hchain]
    simp [hscopes]
  case frames => rw [hheap, hchain, horigins, Layers.origins]
  case opened =>
    rw [hheap]
    exact fun f hf => hgood.openedFor (h.size_of_mem_chain hgood hf)
  case outermost => rw [hheap, h.getLast?_chain hgood]
  case entry => rw [hentry, ← href, Visit.distance?]
  case bound =>
    intro d hd
    have hd' := hdistance ▸ hd
    obtain ⟨l, hl, hhas, -⟩ := Layers.layer_of_distance? hd'
    obtain ⟨f, hf, hfits⟩ := h.fits hgood hl
    have hlocate : locate σ ref m =
        onLine ref.name.line (m.heap.locateAt m.current d ref.name.lexeme) m := by
      unfold locate
      rw [hentry, hd]
      rfl
    refine ⟨f, by rw [hheap, hf], ?_⟩
    rw [hlocate, hheap, Heap.locateAt, hf]
    dsimp only
    split
    case isTrue hbinds => exact .inl rfl
    case isFalse hmissing =>
      refine .inr ⟨hearly d ⟨hd', l, hl, ?_⟩, rfl⟩
      obtain ⟨ready, hready⟩ := (Bindings.contains_iff _ _).mp hhas
      cases ready with
      | false => exact hready
      | true => exact absurd (hfits.ready _ hready) hmissing
  case unbound =>
    intro hd
    have hlocate : locate σ ref m =
        onLine ref.name.line (m.heap.locate Heap.globals ref.name.lexeme) m := by
      unfold locate
      rw [hentry, hd]
      rfl
    rw [hlocate, hheap, Heap.locate, hgood.chain_globals, List.find?_cons, List.find?_nil]
    cases (W.left.frame Heap.globals).bindings.contains ref.name.lexeme with
    | true => exact .inl rfl
    | false => exact .inr rfl

/-- A name that is early in its layers is early for a visit in them. -/
theorem Scope.Layers.Early.visit {d : Nat} (h : Γ.Early ref.name.lexeme d) :
    (⟨ref, Γ.scopes, Γ.origins⟩ : Visit).Early ∧
      (⟨ref, Γ.scopes, Γ.origins⟩ : Visit).distance? = some d := by
  obtain ⟨hdistance, l, hl, hready⟩ := h
  rw [Layers.distance?_eq_scopes] at hdistance
  refine ⟨⟨d, l.names, hdistance, ?_, hready⟩, hdistance⟩
  rw [Layers.scopes, List.getElem?_map, hl]
  rfl

/-- Of the faults that the static walk rules out, alike runs end with one only. -/
theorem FaultsAlike.missing_of_internal {line : Nat} {cause : RuntimeCause} {fault : Fault}
    (h : FaultsAlike K L (.runtime ⟨line, cause⟩) fault) (hinternal : cause.isInternal = true) :
    ∃ Γ ref ref' d, K Γ ref ref' ∧ Γ.Early ref.name.lexeme d ∧ ref.name.line = line ∧
      cause = .missingAtDistance ref.name.lexeme d := by
  cases h with
  | runtime _ hcause => cases hcause.symm.trans hinternal
  | missing href _ hearly => exact ⟨_, _, _, _, href, hearly, rfl, rfl⟩

end

section

variable {N : String → String → Prop} {vs : List Visit} {n : Nat} {W : World} {s s' : Session}
  {ch : Chunk}

/-- The moments of a session in lockstep with itself. An assignment is made after its value has been
evaluated, when the frames outwards are the same. -/
theorem Session.InStep.resolves (h : s.InStep N vs n W s)
    (hnatives : ∀ native ∈ s.natives, native.Faithful)
    (hch : ch.Alike (Placed (· ∈ vs) N) Eq ch) (fuel : Nat) {node : Node} {m : Machine}
    {ref : Reference} (href : node.reference? = some ref)
    (hreach : Reaches (fun see => ch.watched see s.setting fuel) s.machine node m) :
    ∃ v ∈ vs, Resolves s.setting m ref v ∧ ∀ value, node = .expr (.assign ref value) →
      ∀ k w m', Eval.evaluate s.setting k value m = .ok w m' → Resolves s.setting m' ref v := by
  have hagree : ∀ native ∈ s.setting.natives, native.Agrees (Placed (· ∈ vs) N) Eq :=
    fun native hnative => (hnatives native hnative).agrees
  have hplaced : ∀ {W : World} {Γ : Layers} {ref ref' : Reference} {m : Machine},
      W.Good (Placed (· ∈ vs) N) Eq → W.Matches m.current Γ → m.heap = W.left →
        Placed (· ∈ vs) N Γ ref ref' →
          Resolves s.setting m ref ⟨ref, Γ.scopes, Γ.origins⟩ := by
    intro W Γ ref ref' m hgood hmatches hheap href
    refine hmatches.resolves hgood hheap rfl ?_ rfl (Layers.distance?_eq_scopes _ _).symm
      (fun d hd => hd.visit.1) (h.tabled.visited _ href.visited)
    exact List.length_map _
  -- Nothing that watches a run can stop it but where this is known.
  have hwatches : Lockstep.Watches (Placed (· ∈ vs) N) Eq
      (fun _ => ∃ v ∈ vs, Resolves s.setting m ref v ∧ ∀ value, node = .expr (.assign ref value) →
        ∀ k w m', Eval.evaluate s.setting k value m = .ok w m' → Resolves s.setting m' ref v)
      (stopAt node m (.runtime ⟨0, .chainTooShort 0⟩)) := by
    refine Lockstep.watches_stopAt fun W m' hgood hcomes hstep => ?_
    cases hcomes with
    | expr place alike =>
        cases alike with
        | ident hK =>
            cases href
            exact ⟨_, hK.visited, hplaced hgood place hstep.left hK, by rintro _ ⟨⟩⟩
        | this hK =>
            cases href
            exact ⟨_, hK.visited, hplaced hgood place hstep.left hK, by rintro _ ⟨⟩⟩
        | super hK =>
            cases href
            exact ⟨_, hK.visited, hplaced hgood place hstep.left hK, by rintro _ ⟨⟩⟩
        | assign hK _ _ hv =>
            cases href
            refine ⟨_, hK.visited, hplaced hgood place hstep.left hK, ?_⟩
            rintro value ⟨⟩ k w m₁ heval
            have hlock := (Lockstep.evaluates_executes (F := fun _ => False) Lockstep.watches_idle
              h.tables h.natives hagree k).1 0 W _ _ _ _ hgood place (Nat.zero_le _) hv
            have hout := (hlock _ _ hstep).resolve_left (by rintro ⟨_, _, hF⟩; exact hF)
            rw [evaluateWatched_idle, heval] at hout
            generalize Eval.evaluate s.setting k _ _ = x' at hout
            cases hout with
            | ok hle hgood' hstep' hw =>
                refine hplaced hgood' ?_ hstep'.left hK
                exact hstep'.current ▸ place.mono hle
        | _ => cases href
    | stmt stands alike =>
        cases alike with
        | derivedClass _ _ _ hK hne =>
            cases href
            refine ⟨_, hK.visited, ?_, by rintro _ ⟨⟩⟩
            refine stands.place.resolves hgood hstep.left rfl ?_ ?_ ?_ ?_
              (h.tabled.visited _ hK.visited)
            · rw [Layers.scopes, List.length_map]
              cases ‹Layers› <;> rfl
            · exact Layers.origins_mark _ _ _
            · rw [← Layers.distance?_mark hne.symm]
              exact (Layers.distance?_eq_scopes _ _).symm
            · exact fun d hd => (hd.mark hne.symm).visit.1
        | _ => cases href
  have hlock := hch.lockstep hwatches h.tables h.natives hagree fuel h.good
  obtain ⟨m', hstop⟩ := hreach (.runtime ⟨0, .chainTooShort 0⟩)
  rcases hlock _ _ h.machines with ⟨_, _, hF⟩ | hout
  · exact hF
  · dsimp only at hstop
    rw [hstop] at hout
    generalize ch.watched idle s.setting fuel s.machine = x' at hout
    cases hout with
    | error _ _ _ hfault =>
        obtain ⟨_, _, _, _, -, -, -, hcause⟩ := hfault.missing_of_internal rfl
        cases hcause

/-- A report that only a mistake in the static walk could cause is of a variable that is missing
while it is declared but not ready. -/
theorem Session.InStep.internal (h : s.InStep N vs n W s)
    (hnatives : ∀ native ∈ s.natives, native.Faithful)
    (hch : ch.Alike (Placed (· ∈ vs) N) Eq ch) {fuel line : Nat} {t : Step Answer}
    {cause : RuntimeCause} (hinternal : cause.isInternal = true)
    (hperform : (s.perform fun σ => ch.watched idle σ fuel) = some t)
    (hreport : .runtime line cause ∈ t.reports) :
    ∃ v ∈ vs, v.Early ∧ v.ref.name.line = line ∧
      ∃ d, v.distance? = some d ∧ cause = .missingAtDistance v.ref.name.lexeme d := by
  have hlock := hch.lockstep (F := fun _ => False) Lockstep.watches_idle h.tables h.natives
    (fun native hnative => (hnatives native hnative).agrees) fuel h.good
  have hout := (hlock _ _ h.machines).resolve_left (by rintro ⟨_, _, hF⟩; exact hF)
  unfold Session.perform at hperform
  dsimp only at hperform
  generalize hx : ch.watched idle s.setting fuel s.machine = x at hout hperform
  generalize ch.watched idle s.setting fuel s.machine = x' at hout
  cases hout with
  | ok =>
      cases hperform
      cases hreport
  | error _ _ _ hfault =>
      obtain ⟨d, hd, rfl⟩ := Option.map_eq_some_iff.mp hperform
      cases List.mem_singleton.mp hreport
      unfold Diagnostic.ofFault? at hd
      split at hd <;> cases hd
      obtain ⟨Γ, ref, ref', d, href, hearly, hline, hcause⟩ := hfault.missing_of_internal hinternal
      exact ⟨_, href.visited, hearly.visit.1, hline, d, hearly.visit.2, hcause⟩

end

section

variable {natives : List Native} {output : Output} {s : Session} {vs : List Visit} {n : Nat}
  {r : Request}

theorem ofVariables_same : (⟨[], "", ""⟩ : Renaming).OfVariables := by
  constructor <;> simp [Reserved]

/-- A session that has come to no fault of the walk's making, save for one: where a report tells that
a variable is missing, the walk has visited the variable in a scope that declares it while it is not
ready yet, which is inside of its own initializer. -/
theorem missing_in_own_initializer (hnatives : ∀ native ∈ natives, native.Faithful)
    (h : History natives output s vs n) (hsize : n + r.text.length < UInt64.size) {t : Step Answer}
    (hstep : s.handle r = some t) {line : Nat} {cause : RuntimeCause}
    (hinternal : cause.isInternal = true) (hreport : .runtime line cause ∈ t.reports) :
    ∃ v ∈ vs ++ r.visits s.nextId, v.Early ∧ v.ref.name.line = line ∧
      ∃ d, v.distance? = some d ∧ cause = .missingAtDistance v.ref.name.lexeme d := by
  obtain ⟨W, hself⟩ := h.inStep ofVariables_same hnatives (Nat.lt_of_le_of_lt (Nat.le_add_right ..) hsize)
  have hfaithful : ∀ native ∈ s.natives, native.Faithful := h.natives_eq ▸ hnatives
  cases hch : r.chunk? s.nextId with
  | none =>
      obtain ⟨status, reports, answer, hquiet, -, hhandle⟩ := Session.handle_of_none hch
      rw [hhandle s rfl] at hstep
      cases hstep
      exact absurd trivial (hquiet _ hreport)
  | some ch =>
      rw [Session.handle_of_chunk hch] at hstep
      split at hstep
      case isTrue haccepted =>
        obtain ⟨hentered, halike⟩ := hself.running ofVariables_same hsize hch haccepted
        exact hentered.internal hfaithful halike hinternal hstep hreport
      case isFalse hrejected =>
        cases hstep
        obtain ⟨e, -, he⟩ := List.mem_map.mp hreport
        cases he

/-- A closure that is called in the initializer of the variable that it reads. -/
theorem missing_in_own_initializer_closure :
    ∃ t, (Session.initial [.clock 0] .unlimited).handle
        (.run 9 "\x7b var a = (fun () \x7b return a; \x7d)(); \x7d") = some t ∧
      .runtime 1 (.missingAtDistance "a" 1) ∈ t.reports ∧
      ∃ v ∈ (Request.run 9 "\x7b var a = (fun () \x7b return a; \x7d)(); \x7d").visits 0, v.Early := by
  have hrun : ((Session.initial [.clock 0] .unlimited).handle
      (.run 9 "\x7b var a = (fun () \x7b return a; \x7d)(); \x7d")).map Step.reports =
        some [.runtime 1 (.missingAtDistance "a" 1)] := by decide +kernel
  obtain ⟨t, ht, hreports⟩ := Option.map_eq_some_iff.mp hrun
  have hreport : .runtime 1 (.missingAtDistance "a" 1) ∈ t.reports := by simp [hreports]
  obtain ⟨v, hv, hearly, -⟩ := missing_in_own_initializer (Native.faithful_of_clock 0 _)
    (.start : History [.clock 0] .unlimited _ _ _) (by decide +kernel) ht rfl hreport
  exact ⟨t, ht, hreport, v, hv, hearly⟩

end

end LoxLang
