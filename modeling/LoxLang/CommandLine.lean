import LoxLang.Session
import LoxLang.Syntax.Dump
import LoxLang.Syntax.Printed
import LoxLang.Text.Quoted
import LoxLang.Text.Utf8

/-!
The commands of the program. A command works on the bytes of a file or, at the prompt, on those of the
standard input; what it prints, what it reports and its exit code make up its outcome.
-/

namespace LoxLang

inductive Command where
  /-- Lists the tokens of a file. -/
  | tokenize (file : String)
  /-- Shows the tree of a file, as text or as JSON. -/
  | parse (file : String) (asJson : Bool)
  /-- Evaluates a file that holds one expression. -/
  | evaluate (file : String)
  /-- Runs a file. -/
  | run (file : String)
  /-- Runs the lines of the standard input one by one. -/
  | prompt
deriving DecidableEq

/-- A command, and whether a log is to be kept. -/
structure Invocation where
  command : Command
  keepsLog : Bool
deriving DecidableEq

namespace Invocation

def logOption : String :=
  "--log"

def ofWords? : List String → Option Command
  | ["tokenize", file] => some (.tokenize file)
  | ["parse", "--json", file] => some (.parse file true)
  | ["parse", file, "--json"] => some (.parse file true)
  | ["parse", file] => some (.parse file false)
  | ["evaluate", file] => some (.evaluate file)
  | ["run", file] => some (.run file)
  | ["run"] => some .prompt
  | ["repl"] => some .prompt
  | _ => none

/-- Reads the arguments of the program; the log option may stand anywhere. -/
def ofArguments? (arguments : List String) : Option Invocation :=
  (ofWords? (arguments.filter (· != logOption))).map fun command =>
    ⟨command, arguments.contains logOption⟩

def usage : String :=
  "Usage: lox [--log] tokenize FILE | parse [--json] FILE | evaluate FILE | run [FILE] | repl\n"

end Invocation

/-- What keeps a command from its work. -/
inductive HostFailure where
  | noSuchFile (file : String)
  | fileNotText (file : String) (why : Utf8.Malformed)
  | inputNotText
deriving DecidableEq

namespace HostFailure

def summary : HostFailure → String
  | noSuchFile file => "Failed to open file " ++ Text.quoted file
  | fileNotText file _ => Text.quoted file ++ " is not valid UTF-8"
  | inputNotText => "stream did not contain valid UTF-8"

def reason? : HostFailure → Option String
  | noSuchFile _ => some "No such file or directory (os error 2)"
  | fileNotText _ why => some why.message
  | inputNotText => none

def report (f : HostFailure) : String :=
  "Error: " ++ f.summary ++ "\n" ++
    match f.reason? with
    | some why => "\nCaused by:\n    " ++ why ++ "\n"
    | none => ""

def exitCode : Nat :=
  1

end HostFailure

/-- What a command leaves behind. -/
structure Outcome where
  stdout : String
  stderr : String
  code : Nat
deriving DecidableEq

/-- Texts with a line end after each. -/
def linesOf (texts : List String) : String :=
  String.join (texts.map (· ++ "\n"))

def Outcome.ofFailure (f : HostFailure) : Outcome :=
  ⟨"", f.report, HostFailure.exitCode⟩

namespace Session

/-- What the session has printed so far. -/
def printed (s : Session) : String :=
  s.machine.output.text

/-- Adds to what the session has printed. -/
def say (text : String) (s : Session) : Session :=
  { s with machine.output.text := s.printed ++ text }

end Session

/-- The outcome of a step, with its result shown after what it printed. -/
def Step.outcome {α : Type} (step : Step α) (shown : α → String) : Outcome :=
  { stdout := step.session.printed ++ (step.result.map shown).getD ""
    stderr := linesOf (step.reports.map Diagnostic.reported)
    code := step.status.exitCode }

namespace Command

def ofItem (item : Item) : Outcome :=
  match item with
  | .token t => ⟨t.display ++ "\n", "", 0⟩
  | .error e => ⟨"", (Diagnostic.ofLexical e).display ++ "\n", Status.staticError.exitCode⟩

/-- Lists the tokens of a text; lexical errors are reported in their places. -/
def tokenizeText (text : String) : Outcome :=
  let items := (scan text).map ofItem
  ⟨String.join (items.map Outcome.stdout), String.join (items.map Outcome.stderr),
    items.foldl (fun code o => max code o.code) 0⟩

def programText (asJson : Bool) (program : List Stmt) : String :=
  if asJson then (programJson program).indented 0 ++ "\n" else linesOf (program.map Stmt.printed)

/-- A session as every command starts one. -/
def session (natives : List Native) : Session :=
  .initial natives .unlimited

/-- Works on the text of a file. -/
def onFile (file : String) (content : Option (List UInt8)) (work : String → Option Outcome) :
    Option Outcome :=
  match content with
  | none => some (.ofFailure (.noSuchFile file))
  | some bytes =>
    match Utf8.decode bytes with
    | .error why => some (.ofFailure (.fileNotText file why))
    | .ok text => work text

/-- What the prompt shows before it reads a line. -/
def promptMark : String :=
  "> "

/-- The lines of an input, each with its line end if it has one. -/
def splitLines : List UInt8 → List (List UInt8)
  | [] => []
  | b :: rest =>
    if b = 10 then [b] :: splitLines rest
    else
      match splitLines rest with
      | [] => [[b]]
      | line :: others => (b :: line) :: others

/-- Runs a line typed at the prompt. -/
def promptLine (fuel : Nat) (line : List UInt8) (s : Session) :
    Option (Except HostFailure (Step Unit)) :=
  match Utf8.decode line with
  | .error _ => some (.error .inputNotText)
  | .ok text => (s.run fuel text).map .ok

/-- Runs the lines of an input, with the reports made before them. The mark is shown before every
line, and before the end of the input. -/
def promptLines (fuel : Nat) (reports : String) : List (List UInt8) → Session → Option Outcome
  | [], s => some ⟨s.printed ++ promptMark, reports, Status.ok.exitCode⟩
  | line :: rest, s => do
    let s := s.say promptMark
    match ← promptLine fuel line s with
    | .error f => some ⟨s.printed, reports ++ f.report, HostFailure.exitCode⟩
    | .ok step =>
      promptLines fuel (reports ++ linesOf (step.reports.map Diagnostic.reported)) rest step.session

/-- Carries a command out, given the files by their names and the bytes of the standard input. There
is no outcome if the fuel is too little. -/
def outcome? (fuel : Nat) (natives : List Native) (files : String → Option (List UInt8))
    (stdin : List UInt8) : Command → Option Outcome
  | tokenize file => onFile file (files file) fun text => some (tokenizeText text)
  | parse file asJson =>
    onFile file (files file) fun text =>
      some (((session natives).parse text).outcome (programText asJson))
  | evaluate file =>
    onFile file (files file) fun text =>
      ((session natives).evaluate fuel text).map fun step =>
        step.outcome fun v => v.printed step.session.machine.heap ++ "\n"
  | run file =>
    onFile file (files file) fun text =>
      ((session natives).run fuel text).map fun step => step.outcome fun _ => ""
  | prompt => promptLines fuel "" (splitLines stdin) (session natives)

end Command

end LoxLang
