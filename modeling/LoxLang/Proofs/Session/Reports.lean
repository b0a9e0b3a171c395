import LoxLang.Proofs.Grammar.Safety
import LoxLang.Proofs.Scope.Verdicts
import LoxLang.Proofs.Session.Requests

/-!
What a step reports. The status of a step says which reports it has made: none, those that keep a text
from being run, or the one that has ended a run. Whatever a stage finds in a text is among the reports:
the scanner's errors, the errors that the parser keeps on its way, and what the rules of scopes say
against the tree.
-/

namespace LoxLang

open Scope Grammar

/-! ### What there is to report -/

section

variable {α : Type} (parse : List Token → Identity → Reading α) (places : α → List Place)

/-- The errors of the scanner, in the order of the text. -/
def lexicalReports (text : String) : List Diagnostic :=
  (lexicalErrorsOf (scan text)).map .ofLexical

/-- The errors of the parser, whether the text scans or not. -/
def syntaxReports (text : String) (i : Identity) : List Diagnostic :=
  (reported (parse (tokensOf (scan text)) i).result).map
    (.ofSyntax (Source.endToken (tokensOf (scan text))))

/-- What the rules say against the places of the tree, if there is a tree. -/
def staticReports (text : String) (i : Identity) : List Diagnostic :=
  match (parse (tokensOf (scan text)) i).result with
  | .ok tree => ((places tree).filterMap Place.error?).map .ofStatic
  | .error _ => []

/-- The reports that keep a text from being run: those of its scanner and its parser, and if there are
none, those against its tree. -/
def textReports (text : String) (i : Identity) : List Diagnostic :=
  if lexicalReports text ++ syntaxReports parse text i = [] then staticReports parse places text i
  else lexicalReports text ++ syntaxReports parse text i

end

/-- A report about a run: one of the program's own faults or a failure of the host. -/
def Diagnostic.IsDynamic : Diagnostic → Prop
  | .runtime _ _ => True
  | .host _ => True
  | _ => False

/-- A step that tells by its status what it has reported: nothing, what keeps its text from being run,
or one fault of the run. A text that is kept from being run prints nothing, since the machine stays as
it is. -/
structure Step.Tells {β : Type} (t : Step β) (s : Session) (found : List Diagnostic) : Prop where
  ok_iff : t.status = .ok ↔ t.reports = []
  static_iff : t.status = .staticError ↔ t.reports ≠ [] ∧ t.reports = found
  runtime_iff : t.status = .runtimeError ↔ ∃ d, t.reports = [d] ∧ d.IsDynamic
  static_kind : t.status = .staticError ↔ ∃ d ∈ t.reports, ¬d.IsDynamic
  quiet : t.status = .staticError → t.session.machine = s.machine
  kept : found ≠ [] → t.status = .staticError
  result_iff : t.result.isSome = true ↔ t.status = .ok

/-! ### Steps -/

section

variable {α β : Type} {s : Session} {t : Step β} {text : String} {i : Identity}
  {parse : List Token → Identity → Reading α} {places : α → List Place} {resolve : α → Findings}

theorem Source.errors_read :
    (Source.read parse text i).errors = lexicalReports text ++ syntaxReports parse text i := by
  unfold Source.errors Source.read syntaxReports
  dsimp only
  cases (parse (tokensOf (scan text)) i).result with
  | ok a => rfl
  | error es => rfl

theorem not_isDynamic_errors {d : Diagnostic}
    (hd : d ∈ lexicalReports text ++ syntaxReports parse text i) : ¬d.IsDynamic := by
  rcases List.mem_append.mp hd with hd | hd
  · obtain ⟨e, -, rfl⟩ := List.mem_map.mp hd
    exact id
  · obtain ⟨e, -, rfl⟩ := List.mem_map.mp hd
    exact id

/-- A reading that fails has an error to show for it. -/
theorem Grammar.readAll_ne_error_nil (read : Reader α) (tokens : List Token) (i : Identity) :
    (readAll read tokens i).result ≠ .error [] := by
  unfold readAll
  split
  · split
    next => simp
    next hne => simpa using hne
  · simp

theorem result_of_reported {result : Except (List SyntaxError) α} (hne : result ≠ .error [])
    (h : reported result = []) : ∃ a, result = .ok a := by
  cases result with
  | ok a => exact ⟨a, rfl⟩
  | error es =>
      obtain rfl : es = [] := h
      exact (hne rfl).elim

theorem ofFault?_eq_none {fault : Fault} : Diagnostic.ofFault? fault = none ↔ fault = .outOfFuel := by
  cases fault <;> simp [Diagnostic.ofFault?]

theorem isDynamic_ofFault? {fault : Fault} {d : Diagnostic} (h : Diagnostic.ofFault? fault = some d) :
    d.IsDynamic := by
  cases fault <;> cases h <;> trivial

/-- A text that is kept from being run. -/
theorem tells_rejected {found : List Diagnostic} {s' : Session} (hmachine : s'.machine = s.machine)
    (hne : found ≠ []) (hstatic : ∀ d ∈ found, ¬d.IsDynamic) :
    (s'.rejected found : Step β).Tells s found where
  ok_iff := ⟨nofun, fun h => (hne h).elim⟩
  static_iff := ⟨fun _ => ⟨hne, rfl⟩, fun _ => rfl⟩
  runtime_iff := by
    refine ⟨nofun, ?_⟩
    rintro ⟨d, hreports, hd⟩
    exact (hstatic d (by rw [show found = [d] from hreports]; exact List.mem_singleton_self d) hd).elim
  static_kind := by
    obtain ⟨d, hd⟩ := List.exists_mem_of_ne_nil _ hne
    exact ⟨fun _ => ⟨d, hd, hstatic d hd⟩, fun _ => rfl⟩
  quiet _ := hmachine
  kept _ := rfl
  result_iff := by simp [Session.rejected]

/-- A text that is run. -/
theorem tells_performed {action : Setting → Eval β} {s' : Session}
    (h : s'.perform action = some t) : t.Tells s [] := by
  rcases Session.perform_cases h with ⟨a, m, -, rfl⟩ | ⟨fault, m, d, -, hd, rfl⟩
  · exact ⟨by simp, by simp, by simp, by simp, nofun, fun h => (h rfl).elim, by simp⟩
  · have hdynamic := isDynamic_ofFault? hd
    exact ⟨by simp, by simp, by simpa using hdynamic, by simpa using hdynamic, nofun,
      fun h => (h rfl).elim, by simp⟩

theorem perform_eq_none {action : Setting → Eval β} (h : s.perform action = none) :
    ∃ m, action s.setting s.machine = .error .outOfFuel m := by
  unfold Session.perform at h
  split at h
  · cases h
  case h_2 fault m haction =>
    rw [Option.map_eq_none_iff, ofFault?_eq_none] at h
    exact ⟨m, h ▸ haction⟩

/-- A text without a tree has an error of the scanner or of the parser. -/
theorem errors_of_tree?_none (hparse : ∀ tokens i, (parse tokens i).result ≠ .error [])
    (h : (Source.read parse text i).tree? = none) :
    lexicalReports text ++ syntaxReports parse text i ≠ [] := by
  intro hnil
  obtain ⟨hlexical, hsyntax⟩ := List.append_eq_nil_iff.mp hnil
  obtain ⟨tree, hresult⟩ := result_of_reported (hparse _ _) (List.map_eq_nil_iff.mp hsyntax)
  have hreading : parse (tokensOf (scan text)) i =
      ⟨.ok tree, (parse (tokensOf (scan text)) i).nextId⟩ := by rw [← hresult]
  have hsome := (Source.tree?_of_result (List.map_eq_nil_iff.mp hlexical) hreading).1
  rw [h] at hsome
  cases hsome

/-- A text with a tree has no errors but those that are found against the tree. -/
theorem textReports_of_tree? {tree : α}
    (hresolve : ∀ tree, (resolve tree).errors = (places tree).filterMap Place.error?)
    (h : (Source.read parse text i).tree? = some tree) :
    textReports parse places text i = (resolve tree).errors.map .ofStatic := by
  obtain ⟨hlexical, hresult⟩ := Source.result_of_tree? h
  have hnone : lexicalReports text ++ syntaxReports parse text i = [] := by
    simp [lexicalReports, syntaxReports, hlexical, hresult, reported]
  rw [textReports, if_pos hnone, staticReports, hresult, hresolve]

/-- What a session makes of findings: it rejects what there is something against, and runs the rest. -/
theorem resolved_tells (findings : Findings) (action : Setting → Eval β) {s' : Session}
    (hmachine : s'.machine = s.machine) :
    (∀ t, s'.resolved findings action = some t → t.Tells s (findings.errors.map .ofStatic)) ∧
    (s'.resolved findings action = none → findings.errors = [] ∧
      ∃ m, action ⟨s'.natives, findings.distances ++ s'.distances⟩ s.machine = .error .outOfFuel m) := by
  unfold Session.resolved
  dsimp only
  split
  next hclean =>
    rw [List.isEmpty_iff.mp hclean]
    refine ⟨fun t ht => tells_performed ht, fun hnone => ⟨rfl, ?_⟩⟩
    exact hmachine ▸ perform_eq_none hnone
  next hfound =>
    refine ⟨?_, nofun⟩
    rintro _ ⟨⟩
    refine tells_rejected hmachine (by simpa using hfound) fun d hd => ?_
    obtain ⟨e, -, rfl⟩ := List.mem_map.mp hd
    exact id

/-- What a session makes of a text that it reads, resolves and runs. -/
theorem whenRead_tells (s : Session) (text : String) (action : α → Setting → Eval β)
    (hparse : ∀ tokens i, (parse tokens i).result ≠ .error [])
    (hresolve : ∀ tree, (resolve tree).errors = (places tree).filterMap Place.error?) :
    (∀ t, s.whenRead (Source.read parse text s.nextId)
        (fun tree s => s.resolved (resolve tree) (action tree)) = some t →
      t.Tells s (textReports parse places text s.nextId)) ∧
    (s.whenRead (Source.read parse text s.nextId)
        (fun tree s => s.resolved (resolve tree) (action tree)) = none →
      textReports parse places text s.nextId = [] ∧
        ∃ tree m, (parse (tokensOf (scan text)) s.nextId).result = .ok tree ∧
          action tree ⟨s.natives, (resolve tree).distances ++ s.distances⟩ s.machine =
            .error .outOfFuel m) := by
  unfold Session.whenRead
  dsimp only
  cases htree : (Source.read parse text s.nextId).tree? with
  | none =>
      have hne := errors_of_tree?_none hparse htree
      rw [Source.errors_read, textReports, if_neg hne]
      refine ⟨?_, nofun⟩
      rintro _ ⟨⟩
      exact tells_rejected rfl hne fun d hd => not_isDynamic_errors hd
  | some tree =>
      obtain ⟨-, hresult⟩ := Source.result_of_tree? htree
      rw [textReports_of_tree? hresolve htree]
      dsimp only
      have hmachine : { s with nextId := (Source.read parse text s.nextId).nextId }.machine =
          s.machine := rfl
      obtain ⟨htells, hunended⟩ := resolved_tells (resolve tree) (action tree) hmachine
      refine ⟨htells, fun hnone => ?_⟩
      obtain ⟨hclean, m, haction⟩ := hunended hnone
      exact ⟨by rw [hclean]; rfl, tree, m, by rw [hresult], haction⟩

end

theorem endsOnce_scan (text : String) : EndsOnce (tokensOf (scan text)) :=
  have hscanned := scanned_textTokens text
  ⟨_, _, hscanned.tokens, hscanned.stop, hscanned.kinds⟩

/-- One way to have a session do something with a text: to read it by `parse`, to hold its tree against
the rules and then to act on it. Steps tell what they report; a step that is never taken is one whose
action does not end, and there was nothing to report before. What the parser has kept when it looks at
a token is part of what is reported, in the same order. -/
structure Session.Accounts {α β : Type} (s : Session) (text : String)
    (parse : List Token → Identity → Reading α)
    (indexed : Nat → Indexed.Parser (Except (List SyntaxError) α)) (places : α → List Place)
    (action : Nat → α → Eval β) (step? : Nat → Option (Step β)) : Prop where
  tells : ∀ fuel t, step? fuel = some t → t.Tells s (textReports parse places text s.nextId)
  unended : ∀ fuel, step? fuel = none → textReports parse places text s.nextId = [] ∧
    ∃ tree m, (parse (tokensOf (scan text)) s.nextId).result = .ok tree ∧
      action fuel tree s.machine = .error .outOfFuel m
  noticed : ∀ fuel, (tokensOf (scan text)).length ≤ fuel →
    ∃ q, indexed fuel (.start (tokensOf (scan text)) s.nextId) =
        .ok (parse (tokensOf (scan text)) s.nextId).result q ∧
      ∀ m ∈ q.trace, m.errors.map (.ofSyntax (Source.endToken (tokensOf (scan text)))) <+:
        syntaxReports parse text s.nextId

/-- Running and evaluating a text, in whatever state a session is, agree in status and reports. A step
succeeds just if it reports nothing. It is a static error just if it makes the reports that keep its
text from being run, which are all lexical errors in the order of the text and then all syntax errors,
or if there are none, all that the rules say against its tree; then nothing is printed. It is a run-time
error just if it reports one fault of the run. -/
theorem status_tells_reports (s : Session) (text : String) :
    s.Accounts text parseProgram Indexed.parseProgram (placesStmts · [])
      (fun fuel ss => Eval.interpret
        ⟨s.natives, (resolveProgram ss).distances ++ s.distances⟩ fuel ss)
      (fun fuel => s.run fuel text) ∧
    s.Accounts text parseExpression Indexed.parseExpression (·.places [])
      (fun fuel e => Eval.evaluate
        ⟨s.natives, (resolveExpression e).distances ++ s.distances⟩ fuel e)
      (fun fuel => s.evaluate fuel text) := by
  have hprogram : ∀ ss, (resolveProgram ss).errors = (placesStmts ss []).filterMap Place.error? :=
    fun ss => walkStmts_reports ss stands_initial
  have hexpression : ∀ e, (resolveExpression e).errors = (e.places []).filterMap Place.error? :=
    fun e => e.walk_reports stands_initial.reads
  have hparse : ∀ tokens i, (parseProgram tokens i).result ≠ .error [] :=
    fun _ _ => readAll_ne_error_nil _ _ _
  have hparse' : ∀ tokens i, (parseExpression tokens i).result ≠ .error [] :=
    fun _ _ => readAll_ne_error_nil _ _ _
  have hrun (fuel : Nat) :=
    whenRead_tells s text (fun ss σ => Eval.interpret σ fuel ss) hparse hprogram
  have hevaluate (fuel : Nat) :=
    whenRead_tells s text (fun e σ => Eval.evaluate σ fuel e) hparse' hexpression
  constructor
  · refine ⟨fun fuel => (hrun fuel).1, fun fuel => (hrun fuel).2, fun fuel hfuel => ?_⟩
    obtain ⟨q, hq, -, -, horderly, -⟩ :=
      Indexed.parseProgram_orderly (endsOnce_scan text) hfuel s.nextId
    exact ⟨q, hq, fun m hm => ((horderly.behind m hm).2).map _⟩
  · refine ⟨fun fuel => (hevaluate fuel).1, fun fuel => (hevaluate fuel).2, fun fuel hfuel => ?_⟩
    obtain ⟨q, hq, -, -, horderly⟩ :=
      Indexed.parseExpression_orderly (endsOnce_scan text) hfuel s.nextId
    exact ⟨q, hq, fun m hm => ((horderly.behind m hm).2).map _⟩

/-- A text with an error of the scanner and one of the parser. -/
theorem status_tells_reports_unread :
    ∃ t, (Session.initial [] .unlimited).run 0 "@ print ;" = some t ∧ t.status = .staticError ∧
      t.reports = [.lexical 1 (.unexpectedCharacter '@'),
        .grammatical ⟨.semicolon, ";", 1⟩ .noExpression] := by
  have hrun : ((Session.initial [] .unlimited).run 0 "@ print ;").map Step.status =
      some .staticError := by decide +kernel
  obtain ⟨t, ht, hstatus⟩ := Option.map_eq_some_iff.mp hrun
  have htells := (status_tells_reports (Session.initial [] .unlimited) "@ print ;").1.tells 0 t ht
  exact ⟨t, ht, hstatus, (htells.static_iff.mp hstatus).2.trans (by decide +kernel)⟩

end LoxLang
