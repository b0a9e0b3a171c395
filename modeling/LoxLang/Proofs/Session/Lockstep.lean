import LoxLang.Proofs.Eval.Natives
import LoxLang.Proofs.Eval.Programs
import LoxLang.Proofs.Scope.Resolution
import LoxLang.Proofs.Session.Requests

/-!
Sessions in lockstep. Two sessions whose heaps are those of a world answer one request alike and are in
lockstep again, and also if the second session is asked to run a chunk in which local variables are
renamed. A session is in lockstep with itself; that is how what holds along runs in lockstep holds of
every moment of a single session.
-/

namespace LoxLang

open Scope Eval

/-! ### Chunks -/

namespace Chunk

/-- Chunks that run alike. -/
def Alike (K : Layers → Reference → Reference → Prop) (L : Nat → Nat → Prop) : Chunk → Chunk → Prop
  | .program ss, .program ss' => Scope.Alike K L [] (.stmts ss ss')
  | .expression e, .expression e' => Scope.Alike K L [] (.expr e e')
  | _, _ => False

/-- A chunk in which local variables are renamed. -/
inductive Renames (r : Renaming) : Chunk → Chunk → Prop
  | program {ss ss' : List Stmt} (h : r.Renames [] (.stmts ss ss')) :
    Renames r (.program ss) (.program ss')
  | expression {e e' : Expr} (h : r.Renames [] (.expr e e')) :
    Renames r (.expression e) (.expression e')

variable {K K' : Layers → Reference → Reference → Prop} {L : Nat → Nat → Prop} {r : Renaming}
  {ch ch' : Chunk}

theorem Alike.imp (hK : ∀ Γ ref ref', K Γ ref ref' → K' Γ ref ref') (h : ch.Alike K L ch') :
    ch.Alike K' L ch' := by
  cases ch <;> cases ch' <;> first | exact h.elim | exact Scope.Alike.mono hK h

theorem renames_self (ch : Chunk) : ch.Renames r ch := by
  cases ch with
  | program ss => exact .program (renamesStmts_self List.not_mem_nil ss)
  | expression e => exact .expression (e.renames_self List.not_mem_nil)

/-- A renamed chunk is accepted like the chunk itself, has the same distances and runs alike. -/
theorem Renames.resolved (hr : r.OfVariables)
    (htable : ∀ v ∈ ch.visits, r.table.lookup v.ref.id = v.distance?) (h : ch.Renames r ch')
    (hspelled : ch.Spelled) (haccepted : ch.Accepted) :
    ch.Alike (Placed (· ∈ ch.visits) r.Maps) Eq ch' ∧ ch'.Accepted ∧
      ch'.findings.distances = ch.findings.distances := by
  have hinitial : Mirror r [] [] .none .none .initial .initial :=
    ⟨.nil, rfl, rfl, rfl, rfl, rfl, rfl, rfl, rfl⟩
  cases h with
  | @program ss ss' h =>
      obtain ⟨halike, hafter⟩ := h.resolved hr htable hspelled [] .none .none _ _ hinitial
        Layers.admits_globals haccepted fun v hv => hv
      exact ⟨halike, hafter.errors', hafter.distances⟩
  | @expression e e' h =>
      obtain ⟨halike, hafter⟩ := h.resolved hr htable hspelled [] .none .none _ _ hinitial
        Layers.admits_globals haccepted fun v hv => hv
      exact ⟨halike, hafter.errors', hafter.distances⟩

/-- One answer on both sides, with a valid value. -/
def SameAnswer (K : Layers → Reference → Reference → Prop) (L : Nat → Nat → Prop) (W : World)
    (a a' : Answer) : Prop :=
  a' = a ∧ ∀ v, a = .value v → W.Valid K L v

theorem Alike.lockstep {F : World → Prop} {σ σ' : Setting} {W : World} {see : Node → Eval Unit}
    (hsee : Lockstep.Watches K L F see) (htables : Lockstep.Tables K L σ σ')
    (hnatives : σ'.natives = σ.natives) (hagree : ∀ native ∈ σ.natives, native.Agrees K L)
    (fuel : Nat) (hgood : W.Good K L) (h : ch.Alike K L ch') :
    Lockstep K L F 0 W Heap.globals (ch.watched see σ fuel) (ch'.watched idle σ' fuel)
      (SameAnswer K L) := by
  cases ch with
  | program ss =>
      cases ch' with
      | expression => exact h.elim
      | program ss' =>
          have hright : (program ss').watched idle σ' fuel =
              (fun _ => .done) <$> interpret σ' fuel ss' := by
            rw [← interpretWatched_idle]
            rfl
          rw [hright]
          refine (Lockstep.interpret hsee htables hnatives hagree fuel hgood h).map ?_
          exact fun _ _ _ _ _ _ => ⟨rfl, nofun⟩
  | expression e =>
      cases ch' with
      | program => exact h.elim
      | expression e' =>
          have hright : (expression e').watched idle σ' fuel = .value <$> evaluate σ' fuel e' := by
            rw [← evaluateWatched_idle]
            rfl
          rw [hright]
          have heval := (Lockstep.evaluates_executes hsee htables hnatives hagree fuel).1
          refine (heval 0 W Heap.globals [] e e' hgood rfl (Nat.zero_le _) h).map ?_
          rintro W' - - v v' ⟨rfl, hv⟩
          refine ⟨rfl, ?_⟩
          rintro w ⟨rfl⟩
          exact hv

end Chunk

/-! ### Sessions -/

/-- Two sessions that have run the same, but for names of local variables that are related by `N`. -/
structure Session.InStep (N : String → String → Prop) (vs : List Visit) (n : Nat) (W : World)
    (s s' : Session) : Prop where
  good : W.Good (Placed (· ∈ vs) N) Eq
  machines : W.InStep Heap.globals s.machine s'.machine
  natives : s'.natives = s.natives
  distances : s'.distances = s.distances
  nextId : s'.nextId = s.nextId
  tabled : s.Tabled vs n

/-- Reports that agree but for the name of a missing variable. -/
inductive Diagnostic.Alike (N : String → String → Prop) : Diagnostic → Diagnostic → Prop
  | same (d : Diagnostic) : Alike N d d
  | missing {line d : Nat} {name name' : String} (hname : N name name') :
    Alike N (.runtime line (.missingAtDistance name d)) (.runtime line (.missingAtDistance name' d))

/-- What two sessions in lockstep answer: the same, and they are in lockstep again. -/
structure Step.Alike (N : String → String → Prop) (vs : List Visit) (n : Nat)
    (t t' : Step Answer) : Prop where
  status : t'.status = t.status
  reports : List.Forall₂ (Diagnostic.Alike N) t.reports t'.reports
  result : t'.result = t.result
  texts : ∀ v, t.result = some (.value v) →
    v.SameTexts t.session.machine.heap t'.session.machine.heap
  output : t'.session.machine.output = t.session.machine.output
  session : ∃ W, t.session.InStep N vs n W t'.session

/-- A request in the place of another: the same one, or one for a chunk with renamed variables. -/
inductive Request.Turns (name fresh : String) (i : Identity) : Request → Request → Prop
  | same (r : Request) : Turns name fresh i r r
  | renamed {r r' : Request} {ch ch' : Chunk} (hch : r.chunk? i = some ch)
    (haccepted : ch.Accepted) (hch' : r'.chunk? i = some ch') (hid : r'.nextId i = r.nextId i)
    (hfuel : r'.fuel = r.fuel) (h : ch.Renames ⟨ch.findings.distances, name, fresh⟩ ch') :
    Turns name fresh i r r'

section

variable {N : String → String → Prop} {vs : List Visit} {n : Nat} {W : World} {s s' : Session}
  {name fresh : String} {r r' : Request} {ch ch' : Chunk}

/-- The tables of sessions in lockstep say where the references that have been visited are bound. -/
theorem Session.InStep.tables (h : s.InStep N vs n W s') :
    Lockstep.Tables (Placed (· ∈ vs) N) Eq s.setting s'.setting := by
  intro Γ ref ref' href
  have hentry : s.distances.lookup ref.id = Γ.distance? ref.name.lexeme :=
    (h.tabled.visited _ href.visited).trans (Layers.distance?_eq_scopes Γ _).symm
  have hentry' : s'.distances.lookup ref'.id = Γ.distance? ref.name.lexeme := by
    rw [h.distances, href.id, hentry]
  exact ⟨href.line, hentry, hentry', href.name⟩

theorem Session.InStep.enter (h : s.InStep N vs n W s') (r r' : Request)
    (hroom : r.Room s.nextId)
    (hid : r'.nextId s.nextId = r.nextId s.nextId)
    (hdistances : r'.distances s.nextId = r.distances s.nextId) :
    (s.entered r).InStep N (vs ++ r.visits s.nextId) (n + r.text.length) W (s'.entered r') := by
  obtain ⟨hgood, hmachines, hnatives, htable, hnext, htabled⟩ := h
  refine ⟨hgood.imp ?_, hmachines, hnatives, ?_, ?_, htabled.entered hroom⟩
  · rintro Γ ref ref' ⟨hid, hline, hname, hnames, hvisited⟩
    exact ⟨hid, hline, hname, hnames, List.mem_append_left _ hvisited⟩
  · simp only [Session.entered, hnext, htable, hdistances]
  · simp only [Session.entered, hnext, hid]

theorem Session.Tabled.of_machine (h : s.Tabled vs n) (m : Machine) :
    ({ s with machine := m } : Session).Tabled vs n :=
  ⟨h.nextId, h.visited, h.ids, h.entries⟩

/-- Faults that are alike are reported alike. -/
theorem FaultsAlike.ofFault? {f f' : Fault} (h : FaultsAlike (Placed (· ∈ vs) N) Eq f f') :
    Option.Rel (Diagnostic.Alike N) (Diagnostic.ofFault? f) (Diagnostic.ofFault? f') := by
  cases h with
  | output message => exact .some (.same _)
  | outOfFuel => exact .none
  | runtime hline _ =>
      subst hline
      exact .some (.same _)
  | missing href hline _ =>
      have heq := href.line
      rw [← heq]
      exact .some (.missing href.names)

/-- Two sessions run chunks that run alike. -/
theorem Session.InStep.perform (h : s.InStep N vs n W s')
    (hnatives : ∀ native ∈ s.natives, native.Faithful)
    (hch : ch.Alike (Placed (· ∈ vs) N) Eq ch') (fuel : Nat) :
    Option.Rel (Step.Alike N vs n) (s.perform fun σ => ch.watched idle σ fuel)
      (s'.perform fun σ => ch'.watched idle σ fuel) := by
  have hlock := hch.lockstep (F := fun _ => False) Lockstep.watches_idle h.tables h.natives
    (fun native hnative => (hnatives native hnative).agrees) fuel h.good
  have hout := (hlock _ _ h.machines).resolve_left (by rintro ⟨_, _, hF⟩; exact hF)
  unfold Session.perform
  dsimp only
  generalize ch.watched idle s.setting fuel s.machine = x at hout
  generalize ch'.watched idle s'.setting fuel s'.machine = x' at hout
  cases hout with
  | ok hle hgood hstep hv =>
      obtain ⟨rfl, hvalid⟩ := hv
      refine .some ⟨rfl, .nil, rfl, ?_, hstep.output,
        ⟨_, hgood, hstep, h.natives, h.distances, h.nextId, h.tabled.of_machine _⟩⟩
      rintro v ⟨rfl⟩
      dsimp only
      rw [hstep.left, hstep.right]
      exact hgood.sameTexts (hvalid v rfl)
  | error hle hgood hstep hfault =>
      have hreport := hfault.ofFault?
      dsimp only
      generalize Diagnostic.ofFault? _ = d at hreport
      generalize Diagnostic.ofFault? _ = d' at hreport
      cases hreport with
      | none => exact .none
      | some hd =>
          exact .some ⟨rfl, .cons hd .nil, rfl, by rintro _ ⟨⟩, hstep.output,
            ⟨_, hgood, hstep, h.natives, h.distances, h.nextId, h.tabled.of_machine _⟩⟩

/-- Two sessions in lockstep answer a request alike. -/
theorem Session.InStep.answer (h : s.InStep (Renaming.Maps ⟨[], name, fresh⟩) vs n W s')
    (hnames : (⟨[], name, fresh⟩ : Renaming).OfVariables)
    (hnatives : ∀ native ∈ s.natives, native.Faithful) (hroom : r.Room s.nextId)
    (hr : r.Turns name fresh s.nextId r') :
    Option.Rel (Step.Alike (Renaming.Maps ⟨[], name, fresh⟩) (vs ++ r.visits s.nextId)
      (n + r.text.length)) (s.handle r) (s'.handle r') := by
  -- A chunk that is run is run in the place of a renamed one, if only of itself.
  have hrun : ∀ {ch ch' : Chunk}, r.chunk? s.nextId = some ch → ch.Accepted →
      r'.chunk? s.nextId = some ch' → r'.nextId s.nextId = r.nextId s.nextId → r'.fuel = r.fuel →
        ch.Renames ⟨ch.findings.distances, name, fresh⟩ ch' →
          Option.Rel (Step.Alike (Renaming.Maps ⟨[], name, fresh⟩) (vs ++ r.visits s.nextId)
            (n + r.text.length)) (s.handle r) (s'.handle r') := by
    intro ch ch' hch haccepted hch' hid hfuel hrenames
    obtain ⟨hspelled, hnumbered⟩ := hroom.chunk_read hch
    have htable : ∀ v ∈ ch.visits, ch.findings.distances.lookup v.ref.id = v.distance? := by
      rw [ch.distances_eq]
      exact lookup_entries hnumbered.distinct
    have hvariables : Renaming.OfVariables ⟨ch.findings.distances, name, fresh⟩ :=
      ⟨hnames.name, hnames.fresh⟩
    obtain ⟨halike, haccepted', hdistances⟩ := hrenames.resolved hvariables htable hspelled haccepted
    have hentered := h.enter r r' hroom hid (by
      simp only [Request.distances, hch, hch', Option.map_some, hdistances])
    rw [Session.handle_of_chunk hch, Session.handle_of_chunk (h.nextId ▸ hch'), if_pos haccepted,
      if_pos haccepted', hfuel]
    refine hentered.perform hnatives (halike.imp ?_) r.fuel
    rintro Γ ref ref' ⟨hid, hline, hname, hnames, hvisited⟩
    refine ⟨hid, hline, hname, hnames, List.mem_append_right _ ?_⟩
    rwa [Request.visits_of_accepted hch haccepted]
  cases hr with
  | renamed hch haccepted hch' hid hfuel hrenames =>
      exact hrun hch haccepted hch' hid hfuel hrenames
  | same =>
      cases hch : r.chunk? s.nextId with
      | none =>
          obtain ⟨status, reports, answer, -, hvalue, hhandle⟩ := Session.handle_of_none hch
          have hentered := h.enter r r hroom rfl rfl
          rw [hhandle s rfl, hhandle s' h.nextId]
          refine .some ⟨rfl, List.forall₂_same.mpr fun d _ => .same d, rfl, ?_, ?_, W, hentered⟩
          · exact fun v hv => absurd hv (hvalue v)
          · exact h.machines.output
      | some ch =>
          by_cases haccepted : ch.Accepted
          · exact hrun hch haccepted hch rfl rfl ch.renames_self
          · have hentered := h.enter r r hroom rfl rfl
            rw [Session.handle_of_chunk hch, Session.handle_of_chunk (h.nextId ▸ hch),
              if_neg haccepted, if_neg haccepted]
            refine .some ⟨rfl, List.forall₂_same.mpr fun d _ => .same d, rfl, by rintro _ ⟨⟩, ?_, W, hentered⟩
            exact h.machines.output

theorem Session.InStep.handle (h : s.InStep (Renaming.Maps ⟨[], name, fresh⟩) vs n W s')
    (hnames : (⟨[], name, fresh⟩ : Renaming).OfVariables)
    (hnatives : ∀ native ∈ s.natives, native.Faithful) (hsize : n + r.text.length < UInt64.size)
    (hr : r.Turns name fresh s.nextId r') :
    Option.Rel (Step.Alike (Renaming.Maps ⟨[], name, fresh⟩) (vs ++ r.visits s.nextId)
      (n + r.text.length)) (s.handle r) (s'.handle r') :=
  h.answer hnames hnatives (h.tabled.room hsize) hr

end

end LoxLang
