import LoxLang.Eval.Run
import LoxLang.Scope.Walk
import LoxLang.Source

/-!
Sessions: one machine, and many pieces of source text run on it in turn. A piece with any error that
can be told without running it is not run at all. Globals stay from piece to piece, and the
identities of a piece are counted on from those of the one before.
-/

namespace LoxLang

/-- How a piece of source text fared. -/
inductive Status where
  | ok
  | staticError
  | runtimeError
deriving DecidableEq

def Status.exitCode : Status → Nat
  | ok => 0
  | staticError => 65
  | runtimeError => 70

structure Session where
  machine : Machine
  natives : List Native
  distances : Scope.Distances
  nextId : Identity

/-- What one piece of source text leads to. -/
structure Step (α : Type) where
  status : Status
  reports : List Diagnostic
  result : Option α
  session : Session

namespace Native

/-- The frame for globals that binds the natives; of two with one name the later counts. -/
def bindings (natives : List Native) : Bindings Value :=
  (natives.zipIdx).foldl (fun b p => b.insert p.1.name (.native p.2)) []

/-- Tells the time: what the host has read when the run began, and how much later each call is. -/
def clock (start : Float) (later : Nat → Float := fun _ => 0) : Native :=
  ⟨"clock", 0, fun sight _ => .ok (.number (start + later sight.answered))⟩

end Native

namespace Machine

/-- A machine that has run nothing yet. -/
def initial (natives : List Native) (output : Output) : Machine :=
  ⟨{ Heap.initial with frames := #[⟨Native.bindings natives, none, .globals⟩] }, Heap.globals, output, 0⟩

end Machine

namespace Session

variable {α : Type}

def initial (natives : List Native) (output : Output) : Session :=
  ⟨.initial natives output, natives, [], 0⟩

def setting (s : Session) : Setting :=
  ⟨s.natives, s.distances⟩

/-- A step that ends without running anything. -/
def rejected (reports : List Diagnostic) (s : Session) : Step α :=
  ⟨.staticError, reports, none, s⟩

/-- Runs an action on the session's machine, unless the fuel is too little for it. -/
def perform (action : Setting → Eval α) (s : Session) : Option (Step α) :=
  match action s.setting s.machine with
  | .ok a m => some ⟨.ok, [], some a, { s with machine := m }⟩
  | .error fault m =>
    (Diagnostic.ofFault? fault).map fun d => ⟨.runtimeError, [d], none, { s with machine := m }⟩

/-- Takes what the static walk finds into the session, and goes on if it finds no error. -/
def resolved (findings : Scope.Findings) (action : Setting → Eval α) (s : Session) :
    Option (Step α) :=
  let s := { s with distances := findings.distances ++ s.distances }
  if findings.errors.isEmpty then s.perform action
  else some (s.rejected (findings.errors.map .ofStatic))

/-- Goes on with the tree of a text if the text has no errors. -/
def whenRead {β : Type} (source : Source β) (next : β → Session → Option (Step α)) (s : Session) :
    Option (Step α) :=
  let s := { s with nextId := source.nextId }
  match source.tree? with
  | some tree => next tree s
  | none => some (s.rejected source.errors)

/-- Runs a program that is parsed already. -/
def runProgram (fuel : Nat) (program : List Stmt) (s : Session) : Option (Step Unit) :=
  s.resolved (Scope.resolveProgram program) fun σ => Eval.interpret σ fuel program

/-- Runs a program. -/
def run (fuel : Nat) (text : String) (s : Session) : Option (Step Unit) :=
  s.whenRead (Source.program text s.nextId) (runProgram fuel)

/-- Evaluates a single expression. -/
def evaluate (fuel : Nat) (text : String) (s : Session) : Option (Step Value) :=
  s.whenRead (Source.expression text s.nextId) fun e s =>
    s.resolved (Scope.resolveExpression e) fun σ => Eval.evaluate σ fuel e

/-- Parses a program and runs nothing. -/
def parse (text : String) (s : Session) : Step (List Stmt) :=
  let source := Source.program text s.nextId
  let s := { s with nextId := source.nextId }
  match source.tree? with
  | some program => ⟨.ok, [], some program, s⟩
  | none => s.rejected source.errors

end Session

end LoxLang
