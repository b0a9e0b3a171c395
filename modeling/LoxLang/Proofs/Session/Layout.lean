import LoxLang.Proofs.Eval.Bare
import LoxLang.Proofs.Eval.Natives
import LoxLang.Proofs.Grammar.Relabel
import LoxLang.Proofs.Scope.Relabel
import LoxLang.Proofs.Session.Passages

/-!
The layout of a text. Blanks, comments and line breaks between tokens change the lines that tokens
are on, and nothing else of them. A session that is asked to run a text in one layout or in another
answers alike but for the lines of its reports, and the two sessions that are left cannot be told
apart by anything but the lines of later reports.
-/

namespace LoxLang

open Scope Grammar

/-- One text, or two that scan without errors to tokens of the same kinds and lexemes. -/
inductive Relaid : String → String → Prop
  | same (text : String) : Relaid text text
  | tokens {text text' : String} (hscans : lexicalErrorsOf (scan text) = [])
    (hscans' : lexicalErrorsOf (scan text') = [])
    (htokens : (tokensOf (scan text')).map (fun t => (t.kind, t.lexeme)) =
      (tokensOf (scan text)).map fun t => (t.kind, t.lexeme)) : Relaid text text'

/-- The same request, its text in another layout. -/
inductive Request.Relaid : Request → Request → Prop
  | run {text text' : String} (fuel : Nat) (h : LoxLang.Relaid text text') :
    Relaid (.run fuel text) (.run fuel text')
  | evaluate {text text' : String} (fuel : Nat) (h : LoxLang.Relaid text text') :
    Relaid (.evaluate fuel text) (.evaluate fuel text')
  | parse {text text' : String} (h : LoxLang.Relaid text text') :
    Relaid (.parse text) (.parse text')

/-! ### Without lines -/

def Diagnostic.bare : Diagnostic → Diagnostic
  | .lexical _ cause => .lexical 0 cause
  | .grammatical token cause => .grammatical (token.relabel .bare) cause
  | .static token cause => .static (token.relabel .bare) cause
  | .runtime _ cause => .runtime 0 cause
  | .host message => .host message

def Answer.bare : Answer → Answer
  | .done => .done
  | .value v => .value v
  | .program ss => .program (relabelStmts .bare ss)

/-- A reading without lines, its tree mapped. -/
def Source.bare {α β : Type} (f : α → β) (source : Source α) : Source β where
  lexical := source.lexical.map Diagnostic.bare
  parsed := (source.parsed.map f).mapError (List.map Diagnostic.bare)
  nextId := source.nextId

def Scope.Findings.bare (found : Findings) : Findings :=
  { found with errors := found.errors.map (StaticError.relabel .bare) }

def Session.bare (s : Session) : Session :=
  { s with machine := s.machine.bare }

/-- A step without lines, its result mapped. -/
def Step.bare {α β : Type} (f : α → β) (t : Step α) : Step β :=
  ⟨t.status, t.reports.map Diagnostic.bare, t.result.map f, t.session.bare⟩

/-- Two steps that agree but for lines. Lines are in reports, in the trees that are parsed and in the
code on the heap; the output, the table and the count of identities have none. -/
structure Passage.SameButLines (p p' : Passage) : Prop where
  status : p'.step.status = p.step.status
  messages : p'.step.reports.map Diagnostic.message = p.step.reports.map Diagnostic.message
  result : p'.step.result.map Answer.bare = p.step.result.map Answer.bare
  texts : ∀ v, p.step.result = some (.value v) →
    v.SameTexts p.step.session.machine.heap p'.step.session.machine.heap
  output : p'.step.session.machine.output = p.step.session.machine.output
  distances : p'.step.session.distances = p.step.session.distances
  nextId : p'.step.session.nextId = p.step.session.nextId
  session : p'.step.session.bare = p.step.session.bare

section

variable {α β γ : Type} {f : α → β} {s s' : Session} {r r' : Request} {text text' : String}

/-! ### Reading -/

theorem Diagnostic.message_bare (d : Diagnostic) : d.bare.message = d.message := by
  cases d <;> rfl

theorem Source.tree?_bare (source : Source α) : (source.bare f).tree? = source.tree?.map f := by
  obtain ⟨lexical, parsed, nextId⟩ := source
  cases lexical <;> cases parsed <;> rfl

theorem Source.errors_bare (source : Source α) :
    (source.bare f).errors = source.errors.map Diagnostic.bare := by
  obtain ⟨lexical, parsed, nextId⟩ := source
  unfold errors
  rw [List.map_append]
  cases parsed <;> rfl

theorem map_bare_eq {ts ts' : List Token}
    (h : ts'.map (fun t => (t.kind, t.lexeme)) = ts.map fun t => (t.kind, t.lexeme)) :
    ts'.map (Token.relabel .bare) = ts.map (Token.relabel .bare) := by
  have hbare : Token.relabel .bare =
      (fun p : Kind × String => (⟨p.1, p.2, 0⟩ : Token)) ∘ fun t => (t.kind, t.lexeme) := rfl
  rw [hbare, ← List.map_map, ← List.map_map, h]

theorem endToken_relabel (ts : List Token) :
    (Source.endToken ts).relabel .bare =
      (ts.map (Token.relabel .bare)).getLastD ((Token.eof 1).relabel .bare) := by
  rw [Source.endToken, List.getLastD_eq_getLast?, List.getLastD_eq_getLast?, List.getLast?_map]
  cases ts.getLast? <;> rfl

theorem parsed_bare {g : α → α} (last : Token) (result : Except (List SyntaxError) α) :
    ((result.mapError (List.map (Diagnostic.ofSyntax last))).map g).mapError
        (List.map Diagnostic.bare) =
      ((result.map g).mapError (List.map (SyntaxError.relabel .bare))).mapError
        (List.map (Diagnostic.ofSyntax (last.relabel .bare))) := by
  have hsyntax : ∀ e, (Diagnostic.ofSyntax last e).bare =
      Diagnostic.ofSyntax (last.relabel .bare) (e.relabel .bare) := by
    rintro ⟨found, cause⟩
    cases found <;> rfl
  cases result with
  | ok a => rfl
  | error es =>
      have hmapped : (es.map (Diagnostic.ofSyntax last)).map Diagnostic.bare =
          (es.map (SyntaxError.relabel .bare)).map (Diagnostic.ofSyntax (last.relabel .bare)) := by
        rw [List.map_map, List.map_map]
        exact List.map_congr_left fun e _ => hsyntax e
      exact congrArg Except.error hmapped

/-- What is read from a text is, without lines, a matter of its tokens without lines. -/
theorem Source.read_relaid {g : α → α} {parse : List Token → Identity → Reading α}
    (hparse : ∀ ts i, parse (ts.map (Token.relabel .bare)) (i + Relabelling.bare.shift) =
      (parse ts i).relabel .bare g)
    (h : Relaid text text') (i : Identity) :
    (Source.read parse text' i).bare g = (Source.read parse text i).bare g := by
  cases h with
  | same => rfl
  | tokens hscans hscans' htokens =>
      have hbare := map_bare_eq htokens
      have hlast : (endToken (tokensOf (scan text'))).relabel .bare =
          (endToken (tokensOf (scan text))).relabel .bare := by
        rw [endToken_relabel, endToken_relabel, hbare]
      have hreading : (parse (tokensOf (scan text')) i).relabel .bare g =
          (parse (tokensOf (scan text)) i).relabel .bare g := by
        rw [← hparse, ← hparse, hbare]
      have hresult : ((parse (tokensOf (scan text')) i).result.map g).mapError _ =
          ((parse (tokensOf (scan text)) i).result.map g).mapError _ :=
        congrArg Reading.result hreading
      have hnext : (parse (tokensOf (scan text')) i).nextId + 0 =
          (parse (tokensOf (scan text)) i).nextId + 0 := congrArg Reading.nextId hreading
      rw [UInt64.add_zero, UInt64.add_zero] at hnext
      unfold bare Source.read
      dsimp only
      rw [hscans, hscans', hnext, parsed_bare, parsed_bare, hlast, hresult]

theorem Source.program_relaid (h : Relaid text text') (i : Identity) :
    (Source.program text' i).bare (relabelStmts .bare) =
      (Source.program text i).bare (relabelStmts .bare) :=
  read_relaid parseProgram_relabel h i

theorem Source.expression_relaid (h : Relaid text text') (i : Identity) :
    (Source.expression text' i).bare (Expr.relabel .bare) =
      (Source.expression text i).bare (Expr.relabel .bare) :=
  read_relaid parseExpression_relabel h i

/-! ### Steps -/

theorem Diagnostic.ofFault?_bare (fault : Fault) :
    ofFault? fault.bare = (ofFault? fault).map Diagnostic.bare := by
  cases fault <;> rfl

theorem Scope.relabelDistances_bare (ds : Distances) : relabelDistances .bare ds = ds := by
  refine (List.map_congr_left fun p _ => ?_).trans (List.map_id ds)
  exact congrArg (·, p.2) (UInt64.add_zero p.1)

theorem Scope.Context.findings_bare (c : Context) :
    (c.relabel .bare [] []).findings = c.findings.bare := by
  simp [Context.relabel, findings, Findings.bare, relabelDistances_bare]

theorem Scope.resolveProgram_bare (ss : List Stmt) :
    resolveProgram (relabelStmts .bare ss) = (resolveProgram ss).bare :=
  (congrArg Context.findings (walkStmts_relabel ss .initial)).trans (Context.findings_bare _)

theorem Scope.resolveExpression_bare (e : Expr) :
    resolveExpression (e.relabel .bare) = (resolveExpression e).bare :=
  (congrArg Context.findings (e.walk_relabel .initial)).trans (Context.findings_bare _)

theorem Session.perform_bare {action : Setting → Eval α} {action' : Setting → Eval β}
    (h : Eval.Forgets f (action s.setting) (action' s.setting)) :
    s.bare.perform action' = (s.perform action).map (Step.bare f) := by
  have hrun : action' s.bare.setting s.bare.machine = _ := h s.machine
  unfold perform
  rw [hrun]
  cases action s.setting s.machine with
  | ok a m => rfl
  | error fault m =>
      dsimp only [mapOutcome]
      rw [Diagnostic.ofFault?_bare, Option.map_map, Option.map_map]
      rfl

theorem Session.resolved_bare {action : Setting → Eval α} {action' : Setting → Eval β}
    (found : Findings)
    (h : ∀ σ : Setting, σ.natives = s.natives → Eval.Forgets f (action σ) (action' σ)) :
    s.bare.resolved found.bare action' = (s.resolved found action).map (Step.bare f) := by
  obtain ⟨errors, distances⟩ := found
  cases errors with
  | nil =>
      have hsetting := h ⟨s.natives, distances ++ s.distances⟩ rfl
      exact perform_bare (s := { s with distances := distances ++ s.distances }) hsetting
  | cons e errors =>
      have hreports : ((e :: errors).map (StaticError.relabel .bare)).map Diagnostic.ofStatic =
          ((e :: errors).map Diagnostic.ofStatic).map Diagnostic.bare := by
        rw [List.map_map, List.map_map]
        rfl
      exact congrArg (fun reports => some (Step.mk .staticError reports none _)) hreports

theorem Session.whenRead_bare {δ τ : Type} {g : α → γ} {next : α → Session → Option (Step δ)}
    {next' : γ → Session → Option (Step τ)} {p : δ → τ} (source : Source α)
    (h : ∀ a i, next' (g a) { s.bare with nextId := i } =
      (next a { s with nextId := i }).map (Step.bare p)) :
    s.bare.whenRead (source.bare g) next' = (s.whenRead source next).map (Step.bare p) := by
  unfold whenRead
  dsimp only
  rw [Source.tree?_bare, Source.errors_bare]
  cases source.tree? with
  | some a => exact h a source.nextId
  | none => rfl

theorem Step.bare_map {τ : Type} {g : α → γ} {p : γ → τ} {q : β → τ}
    (hcomp : ∀ a, p (g a) = q (f a)) (t : Option (Step α)) :
    (t.map (Step.map g)).map (Step.bare p) = (t.map (Step.bare f)).map (Step.map q) := by
  cases t with
  | none => rfl
  | some t =>
      obtain ⟨status, reports, result, session⟩ := t
      cases result with
      | none => rfl
      | some a => exact congrArg (fun b => some (Step.mk _ _ (some b) _)) (hcomp a)

/-- What a session answers, without lines, is what the session without lines answers to a text that
is read without lines. -/
theorem Session.run_bare (hnatives : ∀ native ∈ s.natives, native.IgnoresLines) (fuel : Nat)
    (text : String) :
    (s.run fuel text).map (Step.bare id) =
      s.bare.whenRead ((Source.program text s.nextId).bare (relabelStmts .bare))
        (runProgram fuel) := by
  refine (whenRead_bare _ fun ss i => ?_).symm
  unfold runProgram
  rw [resolveProgram_bare]
  refine resolved_bare (s := { s with nextId := i }) _ fun σ hσ => ?_
  exact Eval.forgets_interpret (hσ ▸ hnatives) fuel ss

theorem Session.evaluate_bare (hnatives : ∀ native ∈ s.natives, native.IgnoresLines) (fuel : Nat)
    (text : String) :
    (s.evaluate fuel text).map (Step.bare id) =
      s.bare.whenRead ((Source.expression text s.nextId).bare (Expr.relabel .bare)) fun e s =>
        s.resolved (resolveExpression e) fun σ => Eval.evaluate σ fuel e := by
  refine (whenRead_bare _ fun e i => ?_).symm
  rw [resolveExpression_bare]
  refine resolved_bare (s := { s with nextId := i }) _ fun σ hσ => ?_
  exact (Eval.forgets_evaluate_execute (hσ ▸ hnatives) fuel).1 e

theorem Session.parse_bare (text : String) :
    some ((s.parse text).bare (relabelStmts .bare)) =
      s.bare.whenRead ((Source.program text s.nextId).bare (relabelStmts .bare)) fun program s =>
        some ⟨.ok, [], some program, s⟩ := by
  have hparse : some (s.parse text) = s.whenRead (Source.program text s.nextId) fun program s =>
      some ⟨.ok, [], some program, s⟩ := by
    unfold parse whenRead
    dsimp only
    cases (Source.program text s.nextId).tree? <;> rfl
  rw [← Option.map_some, hparse]
  exact (whenRead_bare _ fun _ _ => rfl).symm

/-! ### Requests in another layout -/

theorem Session.of_bare_eq (h : s'.bare = s.bare) : s'.natives = s.natives ∧
    s'.distances = s.distances ∧ s'.nextId = s.nextId ∧ s'.machine.output = s.machine.output ∧
      s'.machine.heap.bare = s.machine.heap.bare := by
  have hmachine : s'.machine.bare = s.machine.bare := (congrArg machine h :)
  refine ⟨(congrArg natives h :), (congrArg distances h :), (congrArg nextId h :), ?_, ?_⟩
  · exact (congrArg Machine.output hmachine :)
  · exact (congrArg Machine.heap hmachine :)

/-- Sessions that agree but for lines answer a request in two layouts alike. -/
theorem Session.handle_relaid (hnatives : ∀ native ∈ s.natives, native.IgnoresLines)
    (hsession : s'.bare = s.bare) (hr : r.Relaid r') :
    (s'.handle r').map (Step.bare Answer.bare) = (s.handle r).map (Step.bare Answer.bare) := by
  obtain ⟨hsame, -, hnext, -⟩ := of_bare_eq hsession
  have hnatives' : ∀ native ∈ s'.natives, native.IgnoresLines := hsame ▸ hnatives
  cases hr with
  | @run text text' fuel h =>
      have hhandle : ∀ (u : Session) (t : String),
          (u.handle (.run fuel t)).map (Step.bare Answer.bare) =
            ((u.run fuel t).map (Step.bare id)).map (Step.map fun _ => .done) :=
        fun _ _ => Step.bare_map (by exact fun _ => rfl) _
      rw [hhandle, hhandle, run_bare hnatives, run_bare hnatives', hsession, hnext,
        Source.program_relaid h]
  | @evaluate text text' fuel h =>
      have hhandle : ∀ (u : Session) (t : String),
          (u.handle (.evaluate fuel t)).map (Step.bare Answer.bare) =
            ((u.evaluate fuel t).map (Step.bare id)).map (Step.map .value) :=
        fun _ _ => Step.bare_map (by exact fun _ => rfl) _
      rw [hhandle, hhandle, evaluate_bare hnatives, evaluate_bare hnatives', hsession, hnext,
        Source.expression_relaid h]
  | @parse text text' h =>
      have hhandle : ∀ (u : Session) (t : String),
          (u.handle (.parse t)).map (Step.bare Answer.bare) =
            (some ((u.parse t).bare (relabelStmts .bare))).map (Step.map .program) :=
        fun u t => Step.bare_map (by exact fun _ => rfl) (some (u.parse t))
      rw [hhandle, hhandle, parse_bare, parse_bare, hsession, hnext, Source.program_relaid h]

/-- Host functions that see no code do not see its lines. -/
theorem Native.Faithful.ignoresLines {native : Native} (h : native.Faithful) :
    native.IgnoresLines := by
  intro heap n arguments
  have hsight : heap.SameSight heap.bare arguments := by
    refine ⟨rfl, rfl, fun v _ => ?_, fun c _ name f _ => ?_⟩
    · exact ⟨v.printed_bare heap, fun natives => v.detail_bare heap natives⟩
    · exact ⟨Value.printed_bare heap _, fun natives => Value.detail_bare heap natives _⟩
  exact h.same heap heap.bare n arguments hsight

/-- Steps that are equal without lines agree in everything that can be told of them. -/
theorem Passage.sameButLines {p p' : Passage}
    (h : p'.step.bare Answer.bare = p.step.bare Answer.bare) : p.SameButLines p' := by
  have hsession : p'.step.session.bare = p.step.session.bare := (congrArg Step.session h :)
  have hreports : p'.step.reports.map Diagnostic.bare = p.step.reports.map Diagnostic.bare :=
    (congrArg Step.reports h :)
  have hmessages : ∀ ds : List Diagnostic,
      ds.map Diagnostic.message = (ds.map Diagnostic.bare).map Diagnostic.message := by
    intro ds
    simp only [List.map_map, Function.comp_def, Diagnostic.message_bare]
  obtain ⟨-, hdistances, hnext, houtput, hheap⟩ := Session.of_bare_eq hsession
  constructor
  case status => exact (congrArg Step.status h :)
  case messages => rw [hmessages, hreports, ← hmessages]
  case result => exact (congrArg Step.result h :)
  case texts =>
    intro v _
    constructor
    · rw [← v.printed_bare, hheap, v.printed_bare]
    · intro natives
      rw [← v.detail_bare, hheap, v.detail_bare]
  case output => exact houtput
  case distances => exact hdistances
  case nextId => exact hnext
  case session => exact hsession

/-- Sessions that agree but for lines take steps that do, and agree but for lines again. -/
theorem Session.passages_bare {rs rs' : List Request}
    (hnatives : ∀ native ∈ s.natives, native.IgnoresLines) (hsession : s'.bare = s.bare)
    (h : List.Forall₂ Request.Relaid rs rs') :
    Option.Rel (List.Forall₂ Passage.SameButLines) (s.passages rs) (s'.passages rs') := by
  induction h generalizing s s' with
  | nil => exact .some .nil
  | @cons r r' rs rs' hr _ ih =>
      have hstep := handle_relaid hnatives hsession hr
      unfold passages
      cases ht : s.handle r with
      | none =>
          rw [ht, Option.map_none, Option.map_eq_none_iff] at hstep
          rw [hstep]
          exact .none
      | some t =>
          rw [ht, Option.map_some, Option.map_eq_some_iff] at hstep
          obtain ⟨t', ht', hbare⟩ := hstep
          have hnext : t'.session.bare = t.session.bare := congrArg Step.session hbare
          have hrest := ih (natives_of_handle ht ▸ hnatives) hnext
          rw [ht']
          simp only [Option.bind_eq_bind, Option.bind_some]
          generalize passages rs t.session = x at hrest
          generalize passages rs' t'.session = x' at hrest
          cases hrest with
          | none => exact .none
          | some hps => exact .some (.cons (Passage.sameButLines hbare) hps)

/-- A session that is asked the same in two layouts takes steps that agree but for lines, now and in
whatever it is asked later, provided that its host functions do not look at lines. -/
theorem passages_relaid (hnatives : ∀ native ∈ s.natives, native.IgnoresLines)
    {rs rs' : List Request} (h : List.Forall₂ Request.Relaid rs rs') :
    Option.Rel (List.Forall₂ Passage.SameButLines) (s.passages rs) (s.passages rs') :=
  Session.passages_bare hnatives rfl h

/-- A name that is bound nowhere is missed on the first line or on the third. -/
theorem passages_relaid_undefined :
    (∀ native ∈ (Session.initial [.clock 0] .unlimited).natives, native.IgnoresLines) ∧
      List.Forall₂ Request.Relaid [.run 9 "clock(); a;", .evaluate 9 "clock"]
        [.run 9 "clock ( ) ; // a\n\na;", .evaluate 9 "clock"] ∧
      Option.Rel (List.Forall₂ Passage.SameButLines)
        ((Session.initial [.clock 0] .unlimited).passages
          [.run 9 "clock(); a;", .evaluate 9 "clock"])
        ((Session.initial [.clock 0] .unlimited).passages
          [.run 9 "clock ( ) ; // a\n\na;", .evaluate 9 "clock"]) := by
  have hnatives : ∀ native ∈ (Session.initial [.clock 0] .unlimited).natives,
      native.IgnoresLines := by
    intro native hnative
    obtain rfl := List.mem_singleton.mp hnative
    exact (Native.faithful_clock 0 _).ignoresLines
  have hfirst : Relaid "clock(); a;" "clock ( ) ; // a\n\na;" :=
    .tokens (by decide +kernel) (by decide +kernel) (by decide +kernel)
  have hrelaid : List.Forall₂ Request.Relaid [.run 9 "clock(); a;", .evaluate 9 "clock"]
      [.run 9 "clock ( ) ; // a\n\na;", .evaluate 9 "clock"] :=
    .cons (.run 9 hfirst) (.cons (.evaluate 9 (.same "clock")) .nil)
  exact ⟨hnatives, hrelaid, passages_relaid hnatives hrelaid⟩

end

end LoxLang
