import LoxLang.Session
import LoxLang.Proofs.Eval.Watch
import LoxLang.Proofs.Grammar.Economy
import LoxLang.Proofs.Token.Items

/-!
Requests to a session. A session reads the text of a request, enters the distances of the references in
it into its table, and runs it if it has found no error. The visits of the texts that have been run
say what the table holds, as long as the identities last: a session that has read fewer characters
than there are identities has handed none out twice.
-/

namespace LoxLang

open Scope Grammar

/-- What a host can ask of a session. -/
inductive Request where
  | run (fuel : Nat) (text : String)
  | evaluate (fuel : Nat) (text : String)
  | parse (text : String)

/-- What a step gives when it succeeds. -/
inductive Answer where
  | done
  | value (v : Value)
  | program (ss : List Stmt)

/-- A tree that a session runs. -/
inductive Chunk where
  | program (ss : List Stmt)
  | expression (e : Expr)

def Step.map {α β : Type} (f : α → β) (s : Step α) : Step β :=
  ⟨s.status, s.reports, s.result.map f, s.session⟩

namespace Session

def handle : Request → Session → Option (Step Answer)
  | .run fuel text, s => (s.run fuel text).map (Step.map fun _ => .done)
  | .evaluate fuel text, s => (s.evaluate fuel text).map (Step.map .value)
  | .parse text, s => some ((s.parse text).map .program)

end Session

namespace Chunk

def findings : Chunk → Findings
  | program ss => resolveProgram ss
  | expression e => resolveExpression e

/-- The visits of a chunk, which is walked at the top level. -/
def visits : Chunk → List Visit
  | program ss => visitsStmts ss .initial []
  | expression e => e.visits .initial []

def Spelled : Chunk → Prop
  | program ss => SpelledStmts ss
  | expression e => e.Spelled

/-- A chunk without static errors. -/
def Accepted (ch : Chunk) : Prop :=
  ch.findings.errors = []

instance (ch : Chunk) : Decidable ch.Accepted :=
  inferInstanceAs (Decidable (_ = _))

/-- Runs a chunk and watches it. -/
def watched (see : Node → Eval Unit) (σ : Setting) (fuel : Nat) : Chunk → Eval Answer
  | program ss => (fun _ => .done) <$> Eval.interpretWatched see σ fuel ss
  | expression e => .value <$> Eval.evaluateWatched see σ fuel e

theorem walked (ch : Chunk) :
    Walked ch.visits ⟨[], []⟩ ch.findings := by
  cases ch with
  | program ss => exact walkStmts_spec ss .initial []
  | expression e => exact e.walk_spec .initial []

end Chunk

namespace Request

def text : Request → String
  | run _ text => text
  | evaluate _ text => text
  | parse text => text

def fuel : Request → Nat
  | run fuel _ => fuel
  | evaluate fuel _ => fuel
  | parse _ => 0

/-- The tree that a request has a session run, if its text has no error. -/
def chunk? (i : Identity) : Request → Option Chunk
  | run _ text => (Source.program text i).tree?.map .program
  | evaluate _ text => (Source.expression text i).tree?.map .expression
  | parse _ => none

/-- The tree that the parser makes of a request, whether all of its text scans or not and whether it is
to be run or not. -/
def tree? (i : Identity) : Request → Option Chunk
  | run _ text => (Source.program text i).parsed.toOption.map .program
  | evaluate _ text => (Source.expression text i).parsed.toOption.map .expression
  | parse text => (Source.program text i).parsed.toOption.map .program

/-- The next identity behind a request. -/
def nextId (i : Identity) : Request → Identity
  | run _ text => (Source.program text i).nextId
  | evaluate _ text => (Source.expression text i).nextId
  | parse text => (Source.program text i).nextId

/-- What a request adds to the table. -/
def distances (i : Identity) (r : Request) : Distances :=
  ((r.chunk? i).map fun ch => ch.findings.distances).getD []

/-- The visits of the tree of a request, if it is run. -/
def visits (i : Identity) (r : Request) : List Visit :=
  match r.chunk? i with
  | some ch => if ch.Accepted then ch.visits else []
  | none => []

end Request

namespace Session

/-- A session that has read a request and not run it yet. -/
def entered (r : Request) (s : Session) : Session :=
  { s with nextId := r.nextId s.nextId, distances := r.distances s.nextId ++ s.distances }

end Session

/-! ### Steps -/

section

variable {α β : Type} {s : Session} {r : Request} {ch : Chunk}

theorem Session.perform_map (f : α → β) (action : Setting → Eval α) (s : Session) :
    (s.perform action).map (Step.map f) = s.perform fun σ => f <$> action σ := by
  have hmap : (f <$> action s.setting) s.machine = EStateM.map f (action s.setting) s.machine := rfl
  cases hrun : action s.setting s.machine with
  | ok a m =>
      simp only [EStateM.map, hrun] at hmap
      simp only [perform, hrun, hmap]
      rfl
  | error fault m =>
      simp only [EStateM.map, hrun] at hmap
      simp only [perform, hrun, hmap, Option.map_map]
      rfl

/-- What an action on the machine of a session comes to. -/
theorem Session.perform_cases {action : Setting → Eval α} {t : Step α}
    (h : s.perform action = some t) :
    (∃ a m, action s.setting s.machine = .ok a m ∧
      t = ⟨.ok, [], some a, { s with machine := m }⟩) ∨
    ∃ fault m d, action s.setting s.machine = .error fault m ∧
      Diagnostic.ofFault? fault = some d ∧
        t = ⟨.runtimeError, [d], none, { s with machine := m }⟩ := by
  unfold perform at h
  split at h
  case h_1 a m haction =>
    cases h
    exact .inl ⟨a, m, haction, rfl⟩
  case h_2 fault m haction =>
    obtain ⟨d, hd, rfl⟩ := Option.map_eq_some_iff.mp h
    exact .inr ⟨fault, m, d, haction, hd, rfl⟩

theorem Session.resolved_map (f : α → β) (found : Findings) (action : Setting → Eval α)
    (s : Session) :
    (s.resolved found action).map (Step.map f) = s.resolved found fun σ => f <$> action σ := by
  unfold resolved
  dsimp only
  split
  · exact perform_map f action _
  · rfl

/-- What a request with a tree comes to. -/
theorem Session.handle_of_chunk (h : r.chunk? s.nextId = some ch) :
    s.handle r =
      if ch.Accepted then
        (s.entered r).perform fun σ => ch.watched Eval.idle σ r.fuel
      else some ((s.entered r).rejected (ch.findings.errors.map .ofStatic)) := by
  have hentered : s.entered r = { s with
      nextId := r.nextId s.nextId, distances := ch.findings.distances ++ s.distances } := by
    rw [entered, Request.distances, h]
    rfl
  have key : ({ s with nextId := r.nextId s.nextId } : Session).resolved ch.findings
        (fun σ => ch.watched Eval.idle σ r.fuel) =
      if ch.Accepted then
        (s.entered r).perform fun σ => ch.watched Eval.idle σ r.fuel
      else some ((s.entered r).rejected (ch.findings.errors.map .ofStatic)) := by
    rw [hentered]
    simp only [resolved, Chunk.Accepted, List.isEmpty_iff]
    rfl
  rw [← key]
  cases r with
  | run fuel text =>
      obtain ⟨ss, htree, rfl⟩ := Option.map_eq_some_iff.mp h
      simp only [handle, run, whenRead, htree, runProgram, resolved_map, Chunk.watched,
        Eval.interpretWatched_idle]
      rfl
  | evaluate fuel text =>
      obtain ⟨e, htree, rfl⟩ := Option.map_eq_some_iff.mp h
      simp only [handle, evaluate, whenRead, htree, resolved_map, Chunk.watched,
        Eval.evaluateWatched_idle]
      rfl
  | parse text => cases h

/-- A report of the program's own run. -/
def Diagnostic.IsRuntime : Diagnostic → Prop
  | .runtime _ _ => True
  | _ => False

theorem Source.not_isRuntime (source : List Token → Identity → Reading α) (text : String)
    (i : Identity) : ∀ d ∈ (Source.read source text i).errors, ¬d.IsRuntime := by
  intro d hd
  rcases List.mem_append.mp hd with hd | hd
  · obtain ⟨e, -, rfl⟩ := List.mem_map.mp hd
    exact id
  · unfold Source.read at hd
    dsimp only at hd
    cases hresult : (source (tokensOf (scan text)) i).result with
    | ok a => simp [hresult, Except.mapError] at hd
    | error es =>
        simp only [hresult, Except.mapError] at hd
        obtain ⟨e, -, rfl⟩ := List.mem_map.mp hd
        exact id

/-- A request without a tree is answered without running anything, by its text alone. -/
theorem Session.handle_of_none {i : Identity} (h : r.chunk? i = none) :
    ∃ status reports answer, (∀ d ∈ reports, ¬Diagnostic.IsRuntime d) ∧
      (∀ v, answer ≠ some (.value v)) ∧
      ∀ s : Session, s.nextId = i → s.handle r = some ⟨status, reports, answer, s.entered r⟩ := by
  have hentered : ∀ s : Session, s.nextId = i → s.entered r = { s with nextId := r.nextId i } := by
    rintro s rfl
    rw [entered, Request.distances, h]
    rfl
  cases r with
  | run fuel text =>
      have htree := Option.map_eq_none_iff.mp h
      refine ⟨.staticError, (Source.program text i).errors, none, Source.not_isRuntime _ _ _, nofun, ?_⟩
      intro s hs
      rw [hentered s hs]
      subst hs
      simp only [handle, run, whenRead, htree]
      rfl
  | evaluate fuel text =>
      have htree := Option.map_eq_none_iff.mp h
      refine ⟨.staticError, (Source.expression text i).errors, none, Source.not_isRuntime _ _ _, nofun,
        ?_⟩
      intro s hs
      rw [hentered s hs]
      subst hs
      simp only [handle, evaluate, whenRead, htree]
      rfl
  | parse text =>
      cases htree : (Source.program text i).tree? with
      | some ss =>
          have hreports : ∀ d ∈ ([] : List Diagnostic), ¬d.IsRuntime :=
            fun _ hd => absurd hd List.not_mem_nil
          refine ⟨.ok, [], some (.program ss), hreports, nofun, ?_⟩
          intro s hs
          rw [hentered s hs]
          subst hs
          simp only [handle, parse, htree]
          rfl
      | none =>
          refine ⟨.staticError, (Source.program text i).errors, none, Source.not_isRuntime _ _ _, nofun,
            ?_⟩
          intro s hs
          rw [hentered s hs]
          subst hs
          simp only [handle, parse, htree]
          rfl

end

/-! ### What is read -/

section

variable {α : Type} {i : Identity} {r : Request} {ch : Chunk}

theorem Source.result_of_parsed {parse : List Token → Identity → Reading α} {text : String} {a : α}
    (h : (Source.read parse text i).parsed = .ok a) :
    parse (tokensOf (scan text)) i = ⟨.ok a, (Source.read parse text i).nextId⟩ := by
  unfold Source.read at h ⊢
  dsimp only at h ⊢
  generalize parse (tokensOf (scan text)) i = reading at h
  obtain ⟨result, j⟩ := reading
  cases result with
  | ok b =>
      cases h
      rfl
  | error es => cases h

theorem Source.parsed_of_tree? {source : Source α} {a : α} (h : source.tree? = some a) :
    source.lexical = [] ∧ source.parsed = .ok a := by
  unfold Source.tree? at h
  split at h
  case h_1 hlexical hparsed =>
    cases h
    exact ⟨hlexical, hparsed⟩
  case h_2 => cases h

theorem Source.parsed_of_toOption {source : Source α} {a : α}
    (h : source.parsed.toOption = some a) : source.parsed = .ok a := by
  cases hparsed : source.parsed with
  | ok b =>
      rw [hparsed] at h
      cases h
      rfl
  | error es =>
      rw [hparsed] at h
      cases h

theorem Source.result_of_tree? {parse : List Token → Identity → Reading α} {text : String} {a : α}
    (h : (Source.read parse text i).tree? = some a) :
    lexicalErrorsOf (scan text) = [] ∧ parse (tokensOf (scan text)) i =
      ⟨.ok a, (Source.read parse text i).nextId⟩ := by
  obtain ⟨hlexical, hparsed⟩ := parsed_of_tree? h
  exact ⟨List.map_eq_nil_iff.mp hlexical, result_of_parsed hparsed⟩

/-- A text without errors has the tree that is read from its tokens. -/
theorem Source.tree?_of_result {α : Type} {parse : List Token → Identity → Reading α} {text : String}
    {i j : Identity} {a : α} (hlexical : lexicalErrorsOf (scan text) = [])
    (hparse : parse (tokensOf (scan text)) i = ⟨.ok a, j⟩) :
    (Source.read parse text i).tree? = some a ∧ (Source.read parse text i).nextId = j := by
  unfold Source.read
  dsimp only
  rw [hlexical, hparse]
  exact ⟨rfl, rfl⟩

theorem beforeEnd_scan (text : String) : beforeEnd (tokensOf (scan text)) = textTokens text := by
  have hscanned := scanned_textTokens text
  rw [hscanned.tokens, beforeEnd_append hscanned.stop hscanned.kinds]

/-- A text without errors and the program that is derived from its tokens. -/
theorem Source.program_iff {text : String} {j : Identity} {ss : List Stmt} :
    (Source.program text i).tree? = some ss ∧ (Source.program text i).nextId = j ↔
      lexicalErrorsOf (scan text) = [] ∧
        Derives (.declarations ss) ⟨textTokens text, i⟩ ⟨[], j⟩ := by
  rw [← beforeEnd_scan, ← parseProgram_iff_derives]
  constructor
  · rintro ⟨htree, rfl⟩
    exact Source.result_of_tree? htree
  · rintro ⟨hlexical, hparse⟩
    exact Source.tree?_of_result hlexical hparse

theorem Source.expression_iff {text : String} {j : Identity} {e : Expr} :
    (Source.expression text i).tree? = some e ∧ (Source.expression text i).nextId = j ↔
      lexicalErrorsOf (scan text) = [] ∧
        Derives (.expr .assignment e) ⟨textTokens text, i⟩ ⟨[], j⟩ := by
  rw [← beforeEnd_scan, ← parseExpression_iff_derives]
  constructor
  · rintro ⟨htree, rfl⟩
    exact Source.result_of_tree? htree
  · rintro ⟨hlexical, hparse⟩
    exact Source.tree?_of_result hlexical hparse

/-- The phrase that a chunk is read as. -/
def Chunk.phrase : Chunk → Phrase
  | program ss => .declarations ss
  | expression e => .expr .assignment e

/-- The tree of a request is derived from the tokens of its text. -/
theorem Request.derives_tree (h : r.tree? i = some ch) :
    Derives ch.phrase ⟨textTokens r.text, i⟩ ⟨[], r.nextId i⟩ := by
  rw [← beforeEnd_scan]
  cases r with
  | run fuel text | parse text =>
      obtain ⟨ss, hparsed, rfl⟩ := Option.map_eq_some_iff.mp h
      exact parseProgram_iff_derives.mp (Source.result_of_parsed (Source.parsed_of_toOption hparsed))
  | evaluate fuel text =>
      obtain ⟨e, hparsed, rfl⟩ := Option.map_eq_some_iff.mp h
      exact parseExpression_iff_derives.mp
        (Source.result_of_parsed (Source.parsed_of_toOption hparsed))

/-- A chunk that is to be run is the tree of a text that scans. -/
theorem Request.tree_of_chunk (h : r.chunk? i = some ch) :
    lexicalErrorsOf (scan r.text) = [] ∧ r.tree? i = some ch := by
  cases r with
  | run fuel text =>
      obtain ⟨ss, htree, rfl⟩ := Option.map_eq_some_iff.mp h
      obtain ⟨hlexical, hparsed⟩ := Source.parsed_of_tree? htree
      exact ⟨List.map_eq_nil_iff.mp hlexical, by simp [tree?, hparsed, Except.toOption]⟩
  | evaluate fuel text =>
      obtain ⟨e, htree, rfl⟩ := Option.map_eq_some_iff.mp h
      obtain ⟨hlexical, hparsed⟩ := Source.parsed_of_tree? htree
      exact ⟨List.map_eq_nil_iff.mp hlexical, by simp [tree?, hparsed, Except.toOption]⟩
  | parse text => cases h

theorem Request.derives_chunk (h : r.chunk? i = some ch) :
    lexicalErrorsOf (scan r.text) = [] ∧
      Derives ch.phrase ⟨textTokens r.text, i⟩ ⟨[], r.nextId i⟩ :=
  ⟨(tree_of_chunk h).1, derives_tree (tree_of_chunk h).2⟩

/-- There are identities for all tokens of a text that is short enough. -/
theorem fits_textTokens {text : String} (hsize : i.toNat + text.length < UInt64.size) :
    Input.Fits ⟨textTokens text, i⟩ := by
  have hlength := (scanned_textTokens text).length
  rw [String.length_toList] at hlength
  exact Nat.lt_of_le_of_lt (Nat.add_le_add_left hlength _) hsize

/-- The identities that a request uses are counted on from the first, and there are no more of them
than characters. -/
theorem Request.nextId_apart (i : Identity) (r : Request) :
    ∃ k ≤ r.text.length, Apart k i (r.nextId i) := by
  have key : ∀ text j, (∃ k ≤ (beforeEnd (tokensOf (scan text))).length, j = i + .ofNat k) →
      ∃ k ≤ text.length, Apart k i j := by
    rintro text j ⟨k, hk, hj⟩
    rw [beforeEnd_scan] at hk
    have hlength := (scanned_textTokens text).length
    rw [String.length_toList] at hlength
    exact ⟨k, by omega, hj⟩
  cases r with
  | run fuel text => exact key text _ (nextId_parseProgram _ _)
  | evaluate fuel text => exact key text _ (nextId_parseExpression _ _)
  | parse text => exact key text _ (nextId_parseProgram _ _)

/-- A text is one that memory can hold, and reading it does not count past the last identity. -/
structure Request.Room (i : Identity) (r : Request) : Prop where
  length : r.text.length < UInt64.size
  grows : i ≤ r.nextId i

/-- There is room where there is an identity for every character. -/
theorem Request.Room.of_size (hsize : i.toNat + r.text.length < UInt64.size) : r.Room i := by
  obtain ⟨k, hk, hapart⟩ := r.nextId_apart i
  have hmodulus : UInt64.size = 2 ^ 64 := rfl
  constructor
  · omega
  · rw [hapart, UInt64.le_iff_toNat_le, UInt64.toNat_add, UInt64.toNat_ofNat_of_lt' (by omega)]
    omega

theorem Request.Room.nextId_le (h : r.Room i) : (r.nextId i).toNat ≤ i.toNat + r.text.length := by
  obtain ⟨k, hk, hapart⟩ := r.nextId_apart i
  have hlength := h.length
  rw [hapart, UInt64.toNat_add, UInt64.toNat_ofNat_of_lt' (by omega)]
  exact Nat.le_trans (Nat.mod_le _ _) (by omega)

theorem Request.Room.tokens (h : r.Room i) : (textTokens r.text).length < UInt64.size := by
  have hlength := (scanned_textTokens r.text).length
  rw [String.length_toList] at hlength
  exact Nat.lt_of_le_of_lt hlength h.length

/-- A tree that is read is spelled as the scanner spells names, and its references have the identities
that the request uses. -/
theorem Request.Room.chunk_read (hroom : r.Room i) (h : r.chunk? i = some ch) :
    ch.Spelled ∧ Numbered i.toNat (r.nextId i).toNat ch.visits := by
  obtain ⟨-, hread⟩ := r.derives_chunk h
  have hspelled := hread.spelled (scanned_textTokens r.text).genuine
  have hnumbered := hread.numbered hroom.tokens hroom.grows
  cases ch with
  | program ss => exact ⟨hspelled, hnumbered .initial []⟩
  | expression e => exact ⟨hspelled, hnumbered .initial []⟩

theorem Request.chunk_read (h : r.chunk? i = some ch)
    (hsize : i.toNat + r.text.length < UInt64.size) :
    ch.Spelled ∧ Numbered i.toNat (r.nextId i).toNat ch.visits :=
  (Room.of_size hsize).chunk_read h

end

/-! ### Tables -/

/-- The sessions that a host can come to, with the visits of all that has been run and the number of
characters read. -/
inductive History (natives : List Native) (output : Output) : Session → List Visit → Nat → Prop
  | start : History natives output (.initial natives output) [] 0
  | step {s : Session} {vs : List Visit} {n : Nat} {r : Request} {step : Step Answer}
    (h : History natives output s vs n) (hstep : s.handle r = some step) :
    History natives output step.session (vs ++ r.visits s.nextId) (n + r.text.length)

/-- The table of a session says of every visit what the walk found there, and nothing of references
that are still to come. -/
structure Session.Tabled (s : Session) (vs : List Visit) (n : Nat) : Prop where
  nextId : s.nextId.toNat ≤ n
  visited : ∀ v ∈ vs, s.distances.lookup v.ref.id = v.distance?
  ids : ∀ v ∈ vs, v.ref.id.toNat < s.nextId.toNat
  entries : ∀ p ∈ s.distances, p.1.toNat < s.nextId.toNat

theorem Chunk.distances_eq (ch : Chunk) :
    ch.findings.distances = (ch.visits.filterMap Visit.entry?).reverse := by
  rw [ch.walked.distances, List.append_nil]

/-- The entries of a request are of references that it has visited. -/
theorem Request.distances_range {i : Identity} {r : Request} (hroom : r.Room i) :
    ∀ p ∈ r.distances i, i.toNat ≤ p.1.toNat ∧ p.1.toNat < (r.nextId i).toNat := by
  intro p hp
  unfold Request.distances at hp
  cases hch : r.chunk? i with
  | none => simp [hch] at hp
  | some ch =>
      rw [hch] at hp
      replace hp : p ∈ ch.findings.distances := hp
      rw [ch.distances_eq] at hp
      obtain ⟨v, hv, hp⟩ := List.mem_filterMap.mp (List.mem_reverse.mp hp)
      obtain ⟨d, -, rfl⟩ := Option.map_eq_some_iff.mp hp
      exact (hroom.chunk_read hch).2.range v hv

theorem Request.visits_subset {i : Identity} {r : Request} {v : Visit} (hv : v ∈ r.visits i) :
    ∃ ch, r.chunk? i = some ch ∧ ch.Accepted ∧ v ∈ ch.visits := by
  unfold Request.visits at hv
  split at hv
  case h_1 ch hch =>
    split at hv
    case isTrue haccepted => exact ⟨ch, hch, haccepted, hv⟩
    case isFalse => cases hv
  case h_2 => cases hv

theorem Request.visits_of_accepted {i : Identity} {r : Request} {ch : Chunk}
    (hch : r.chunk? i = some ch) (haccepted : ch.Accepted) : r.visits i = ch.visits := by
  simp only [Request.visits, hch, if_pos haccepted]

/-- There is room for a request while fewer characters have been read than there are identities. -/
theorem Session.Tabled.room {s : Session} {vs : List Visit} {n : Nat} {r : Request}
    (h : s.Tabled vs n) (hsize : n + r.text.length < UInt64.size) : r.Room s.nextId :=
  .of_size (Nat.lt_of_le_of_lt (Nat.add_le_add_right h.nextId _) hsize)

/-- Entering the distances of a request leaves the table right for what has been run before. -/
theorem Session.Tabled.entered {s : Session} {vs : List Visit} {n : Nat} (h : s.Tabled vs n)
    {r : Request} (hroom : r.Room s.nextId) :
    (s.entered r).Tabled (vs ++ r.visits s.nextId) (n + r.text.length) := by
  have hnext := h.nextId
  have hlow := UInt64.le_iff_toNat_le.mp hroom.grows
  have hhigh := hroom.nextId_le
  have hrange := Request.distances_range hroom
  have hnew : ∀ v ∈ r.visits s.nextId,
      (s.nextId.toNat ≤ v.ref.id.toNat ∧ v.ref.id.toNat < (r.nextId s.nextId).toNat) ∧
        (r.distances s.nextId).lookup v.ref.id = v.distance? := by
    intro v hv
    obtain ⟨ch, hch, -, hv⟩ := Request.visits_subset hv
    have hnumbered := (hroom.chunk_read hch).2
    refine ⟨hnumbered.range v hv, ?_⟩
    rw [Request.distances, hch, Option.map_some, Option.getD_some, ch.distances_eq]
    exact lookup_entries hnumbered.distinct v hv
  constructor
  case nextId =>
    change (r.nextId s.nextId).toNat ≤ _
    omega
  case visited =>
    intro v hv
    change (r.distances s.nextId ++ s.distances).lookup v.ref.id = _
    rw [List.lookup_append]
    rcases List.mem_append.mp hv with hv | hv
    · have hold := h.ids v hv
      have hmissing : (r.distances s.nextId).lookup v.ref.id = none := by
        refine lookup_of_not_mem fun p hp heq => ?_
        have := (hrange p hp).1
        rw [heq] at this
        omega
      rw [hmissing, Option.none_or, h.visited v hv]
    · obtain ⟨⟨hv, -⟩, hlookup⟩ := hnew v hv
      have hmissing : s.distances.lookup v.ref.id = none := by
        refine lookup_of_not_mem fun p hp heq => ?_
        have := h.entries p hp
        rw [heq] at this
        omega
      rw [hlookup, hmissing, Option.or_none]
  case ids =>
    intro v hv
    change _ < (r.nextId s.nextId).toNat
    rcases List.mem_append.mp hv with hv | hv
    · have := h.ids v hv
      omega
    · exact (hnew v hv).1.2
  case entries =>
    intro p hp
    change _ < (r.nextId s.nextId).toNat
    rcases List.mem_append.mp hp with hp | hp
    · exact (hrange p hp).2
    · have := h.entries p hp
      omega

theorem Session.Tabled.enter {s : Session} {vs : List Visit} {n : Nat} (h : s.Tabled vs n)
    (r : Request) (hsize : n + r.text.length < UInt64.size) :
    (s.entered r).Tabled (vs ++ r.visits s.nextId) (n + r.text.length) :=
  h.entered (h.room hsize)

end LoxLang
