import LoxLang.CommandLine
import Std.Time.DateTime.Timestamp

/-!
The program itself: it reads files and the standard input, and writes what the commands answer. At the
prompt each line is answered before the next is read.
-/

namespace LoxLang

/-- More fuel than any run can use up. -/
def ample : Nat :=
  0x4000000000000000

/-- The natives of a run, with the time at its start in seconds. A millisecond goes by with each call,
so that programs that wait for a later time come to an end. -/
def hostNatives : IO (List Native) := do
  let now ← Std.Time.Timestamp.now
  let start := Float.ofInt now.toMillisecondsSinceUnixEpoch.val / 1000
  return [.clock start fun n => n.toFloat / 1000]

def readBytes? (file : String) : IO (Option (List UInt8)) := do
  try
    return some (← IO.FS.readBinFile file).toList
  catch _ => return none

/-- Reads the bytes of a line, up to and including its end, behind those read before. -/
partial def readLine (input : IO.FS.Stream) (before : List UInt8) : IO (List UInt8) := do
  match (← input.read 1).toList with
  | [] => return before.reverse
  | b :: _ => if b = 10 then return (b :: before).reverse else readLine input (b :: before)

/-- Takes what a session has printed out of it and shows it. -/
def showPrinted (s : Session) : IO Session := do
  let output ← IO.getStdout
  output.putStr s.printed
  output.flush
  return { s with machine.output.text := "" }

partial def answerPrompt (s : Session) : IO UInt32 := do
  let s ← showPrinted (s.say Command.promptMark)
  let line ← readLine (← IO.getStdin) []
  if line.isEmpty then return 0
  let s := { s with natives := ← hostNatives }
  match Command.promptLine ample line s with
  | none => return 1
  | some (.error f) =>
    IO.eprint f.report
    return UInt32.ofNat HostFailure.exitCode
  | some (.ok step) =>
    let s ← showPrinted step.session
    IO.eprint (linesOf (step.reports.map Diagnostic.reported))
    answerPrompt s

/-- Carries out a command on the one file that it names. -/
def answerCommand (command : Command) : IO UInt32 := do
  let content ←
    match command with
    | .tokenize file => readBytes? file
    | .parse file _ => readBytes? file
    | .evaluate file => readBytes? file
    | .run file => readBytes? file
    | .prompt => pure none
  match command.outcome? ample (← hostNatives) (fun _ => content) [] with
  | none => return 1
  | some o =>
    IO.print o.stdout
    IO.eprint o.stderr
    return UInt32.ofNat o.code

end LoxLang

def main (arguments : List String) : IO UInt32 := do
  match LoxLang.Invocation.ofArguments? arguments with
  | none =>
    IO.eprint LoxLang.Invocation.usage
    return 2
  | some invocation =>
    if invocation.keepsLog then IO.FS.writeFile "app.log" ""
    match invocation.command with
    | .prompt => LoxLang.answerPrompt (LoxLang.Command.session (← LoxLang.hostNatives))
    | command => LoxLang.answerCommand command
