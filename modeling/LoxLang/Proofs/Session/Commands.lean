import LoxLang.CommandLine
import LoxLang.Proofs.Session.Reports

/-!
The commands on one file. Listing the tokens of a file, showing its tree, evaluating it and running it
reach the scanner and the parser in different ways, and write reports in two forms. They agree in what
they say against the file: the reports that listing the tokens makes come first with all of them, they
fail together if there are any, and what cannot be shown as a tree cannot be run, for the same reasons
in the same words.
-/

namespace LoxLang

open Scope Grammar

/-- The lines for the lexical errors of a text. -/
def lexicalLines (text : String) : List String :=
  (lexicalReports text).map Diagnostic.display

namespace Command

/-! ### Listing tokens -/

theorem join_stderr (items : List Item) :
    String.join ((items.map ofItem).map Outcome.stderr) =
      linesOf (((lexicalErrorsOf items).map Diagnostic.ofLexical).map Diagnostic.display) := by
  induction items with
  | nil => rfl
  | cons item items ih =>
      cases item with
      | token t => simpa [ofItem, lexicalErrorsOf] using ih
      | error e => simpa [ofItem, lexicalErrorsOf, linesOf] using ih

/-- The exit code from `code` on is raised by the first error, and by no token. -/
theorem foldl_code (items : List Item) (code : Nat) :
    (items.map ofItem).foldl (fun code o => max code o.code) code =
      if lexicalErrorsOf items = [] then code else max code Status.staticError.exitCode := by
  induction items generalizing code with
  | nil => rfl
  | cons item items ih =>
      rw [List.map_cons, List.foldl_cons, ih]
      cases item with
      | token t => simp [ofItem, lexicalErrorsOf]
      | error e => simp [ofItem, lexicalErrorsOf]

theorem stderr_tokenizeText (text : String) :
    (tokenizeText text).stderr = linesOf (lexicalLines text) :=
  join_stderr (scan text)

theorem code_tokenizeText (text : String) :
    (tokenizeText text).code =
      if lexicalErrorsOf (scan text) = [] then Status.ok.exitCode
      else Status.staticError.exitCode := by
  simp only [tokenizeText, foldl_code]
  split <;> rfl

end Command

/-! ### Steps that fail before they run -/

/-- The two forms of a report are one for the errors of the scanner. -/
theorem reported_lexicalReports (text : String) :
    (lexicalReports text).map Diagnostic.reported = lexicalLines text := by
  simp [lexicalLines, lexicalReports, Function.comp_def, Diagnostic.ofLexical, Diagnostic.reported,
    Diagnostic.display]

section

variable {α β : Type} {parse : List Token → Identity → Reading α} {text : String} {i : Identity}
  {s : Session} {next : α → Session → Option (Step β)} {t : Step β}

/-- The errors of a reading, on lines as they are reported: first those of the scanner. -/
theorem Source.lines_errors (parse : List Token → Identity → Reading α) (text : String)
    (i : Identity) :
    (Source.read parse text i).errors.map Diagnostic.reported =
      lexicalLines text ++ (syntaxReports parse text i).map Diagnostic.reported := by
  rw [Source.errors_read, List.map_append, reported_lexicalReports]

theorem Source.lexical_of_tree? {tree : α} (h : (Source.read parse text i).tree? = some tree) :
    lexicalErrorsOf (scan text) = [] :=
  (Source.result_of_tree? h).1

/-- A step on a text begins its reports with the errors of the scanner. -/
theorem Session.lines_whenRead
    (h : s.whenRead (Source.read parse text i) next = some t) :
    ∃ more, t.reports.map Diagnostic.reported = lexicalLines text ++ more := by
  unfold Session.whenRead at h
  dsimp only at h
  split at h
  case h_1 tree htree =>
    refine ⟨t.reports.map Diagnostic.reported, ?_⟩
    simp [lexicalLines, lexicalReports, Source.lexical_of_tree? htree]
  case h_2 =>
    obtain rfl := Option.some.inj h
    exact ⟨_, Source.lines_errors parse text i⟩

/-- A text that does not scan is rejected, whatever there is to be done with its tree. -/
theorem Session.whenRead_of_lexical (s : Session) (next : α → Session → Option (Step β))
    (parse : List Token → Identity → Reading α) (i : Identity)
    (h : lexicalErrorsOf (scan text) ≠ []) :
    ∃ t, s.whenRead (Source.read parse text i) next = some t ∧ t.status = .staticError := by
  unfold Session.whenRead
  dsimp only
  split
  case h_1 tree htree => exact (h (Source.lexical_of_tree? htree)).elim
  case h_2 => exact ⟨_, rfl, rfl⟩

end

/-- Parsing a program is one way to work on its text. -/
theorem Session.parse_eq_whenRead (s : Session) (text : String) :
    some (s.parse text) = s.whenRead (Source.program text s.nextId) fun program s =>
      some ⟨.ok, [], some program, s⟩ := by
  unfold Session.parse Session.whenRead
  dsimp only
  cases (Source.program text s.nextId).tree? <;> rfl

/-- A program that does not parse does not run either, and the reports are the same. -/
theorem Session.run_of_parse {s : Session} {text : String} (fuel : Nat)
    (h : (s.parse text).status = .staticError) :
    ∃ (reports : List Diagnostic) (s' : Session), s'.machine = s.machine ∧
      s.parse text = s'.rejected reports ∧ s.run fuel text = some (s'.rejected reports) := by
  unfold Session.parse at h ⊢
  unfold Session.run Session.whenRead
  dsimp only at h ⊢
  split at h
  case h_1 => cases h
  case h_2 htree =>
    rw [htree]
    exact ⟨_, { s with nextId := (Source.program text s.nextId).nextId }, rfl, rfl, rfl⟩

/-! ### Commands -/

@[simp]
theorem Session.printed_session (natives : List Native) :
    (Command.session natives).printed = "" := rfl

theorem Status.exitCode_eq_static {status : Status} :
    status.exitCode = 65 ↔ status = .staticError := by
  cases status <;> simp [Status.exitCode]

theorem Step.code_outcome {α : Type} {step : Step α} {shown : α → String} :
    (step.outcome shown).code = 65 ↔ step.status = .staticError :=
  Status.exitCode_eq_static

theorem Session.outcome_rejected {α : Type} {s s' : Session} (hmachine : s'.machine = s.machine)
    (reports : List Diagnostic) (shown : α → String) :
    (s'.rejected reports : Step α).outcome shown =
      ⟨s.printed, linesOf (reports.map Diagnostic.reported), 65⟩ := by
  simp [Step.outcome, Session.rejected, Session.printed, hmachine, Status.exitCode]

namespace Command

/-- An outcome that starts from the scanner's errors, if there is one: whatever else it reports comes
after them, and if there are any, the command ends, with the exit code for static errors. -/
structure StartsFrom (text : String) (outcome : Option Outcome) : Prop where
  leads : ∀ o, outcome = some o → ∃ more, o.stderr = linesOf (lexicalLines text ++ more)
  fails : lexicalErrorsOf (scan text) ≠ [] → ∃ o, outcome = some o ∧ o.code = 65

theorem startsFrom_whenRead {α β : Type} (s : Session) (parse : List Token → Identity → Reading α)
    (text : String) (i : Identity) (next : α → Session → Option (Step β))
    (shown : Step β → β → String) :
    StartsFrom text ((s.whenRead (Source.read parse text i) next).map fun step =>
      step.outcome (shown step)) where
  leads := by
    intro o ho
    obtain ⟨step, hstep, rfl⟩ := Option.map_eq_some_iff.mp ho
    obtain ⟨more, hmore⟩ := Session.lines_whenRead hstep
    exact ⟨more, congrArg linesOf hmore⟩
  fails := by
    intro hlexical
    obtain ⟨step, hstep, hstatus⟩ := s.whenRead_of_lexical next parse i hlexical
    exact ⟨_, by rw [hstep, Option.map_some], Step.code_outcome.mpr hstatus⟩

section

variable {fuel : Nat} {natives : List Native} {files : String → Option (List UInt8)}
  {stdin bytes : List UInt8} {file text : String}

theorem onFile_of_text (hfile : files file = some bytes) (htext : Utf8.decode bytes = .ok text)
    (work : String → Option Outcome) : onFile file (files file) work = work text := by
  simp [onFile, hfile, htext]

theorem startsFrom_parse (natives : List Native) (text : String) (asJson : Bool) :
    StartsFrom text (some (((session natives).parse text).outcome (programText asJson))) := by
  have h := startsFrom_whenRead (session natives) parseProgram text 0
    (fun program s => some ⟨.ok, [], some program, s⟩) fun _ => programText asJson
  have hparse := (session natives).parse_eq_whenRead text
  have hread : Source.read parseProgram text 0 = Source.program text (session natives).nextId := rfl
  rwa [hread, ← hparse, Option.map_some] at h

/-- The commands agree on what is to be reported of a file that holds text, before anything of it is
run. Listing its tokens writes a line for each error of the scanner, and fails just if there is one.
The lines of every other command start with those lines, and the others fail if listing the tokens
does, with the same exit code. If the file cannot be parsed, in whichever form its tree was to be
shown, then running it fails in the same way, prints nothing and writes the same lines. -/
theorem commands_agree (hfile : files file = some bytes) (htext : Utf8.decode bytes = .ok text) :
    (∃ listed, outcome? fuel natives files stdin (.tokenize file) = some listed ∧
      listed.stderr = linesOf (lexicalLines text) ∧
      (listed.code = 65 ↔ lexicalErrorsOf (scan text) ≠ [])) ∧
    (∀ c ∈ [.parse file false, .parse file true, .evaluate file, .run file],
      StartsFrom text (outcome? fuel natives files stdin c)) ∧
    ∀ asJson, ∃ parsed, outcome? fuel natives files stdin (.parse file asJson) = some parsed ∧
      (parsed.code = 65 →
        outcome? fuel natives files stdin (.run file) = some ⟨"", parsed.stderr, 65⟩) := by
  simp only [outcome?, onFile_of_text hfile htext]
  refine ⟨⟨_, rfl, stderr_tokenizeText text, ?_⟩, ?_, fun asJson => ⟨_, rfl, fun hcode => ?_⟩⟩
  · rw [code_tokenizeText]
    split <;> simp_all [Status.exitCode]
  · simp only [List.forall_mem_cons, List.not_mem_nil, onFile_of_text hfile htext]
    exact ⟨startsFrom_parse natives text false, startsFrom_parse natives text true,
      startsFrom_whenRead _ _ _ _ _ _, startsFrom_whenRead _ _ _ _ _ _, nofun⟩
  · obtain ⟨reports, s', hmachine, hparse, hrun⟩ :=
      Session.run_of_parse fuel (Step.code_outcome.mp hcode)
    rw [hparse, hrun, Option.map_some, Session.outcome_rejected hmachine,
      Session.outcome_rejected hmachine, Session.printed_session]

/-- A file with an error of the scanner and one of the parser: `@ print ;`. -/
theorem commands_agree_unread :
    let outcome? := outcome? 0 [] (fun _ => some [64, 32, 112, 114, 105, 110, 116, 32, 59]) []
    ∃ listed parsed more, outcome? (.tokenize "a.lox") = some listed ∧ listed.code = 65 ∧
      listed.stderr = linesOf (lexicalLines "@ print ;") ∧
      outcome? (.parse "a.lox" true) = some parsed ∧
      parsed.stderr = linesOf (lexicalLines "@ print ;" ++ more) ∧
      outcome? (.run "a.lox") = some ⟨"", parsed.stderr, 65⟩ := by
  intro outcome?
  obtain ⟨⟨listed, hlisted, hlines, hcode⟩, hstarts, hrun⟩ :=
    @commands_agree 0 [] (fun _ => some [64, 32, 112, 114, 105, 110, 116, 32, 59]) [] _ "a.lox"
      "@ print ;" rfl (by decide +kernel)
  have hlexical : lexicalErrorsOf (scan "@ print ;") ≠ [] := by decide +kernel
  obtain ⟨parsed, hparsed, hfails⟩ := hrun true
  have hparse := hstarts (.parse "a.lox" true) (by simp)
  obtain ⟨more, hmore⟩ := hparse.leads parsed hparsed
  obtain ⟨o, ho, hparsedCode⟩ := hparse.fails hlexical
  obtain rfl : parsed = o := Option.some.inj (hparsed.symm.trans ho)
  exact ⟨listed, parsed, more, hlisted, hcode.mpr hlexical, hlines, hparsed, hmore,
    hfails hparsedCode⟩

end

end Command

end LoxLang
