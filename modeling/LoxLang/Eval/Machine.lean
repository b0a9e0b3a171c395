import LoxLang.Scope.Context
import LoxLang.Store.Lookup
import LoxLang.Store.Text

/-!
The machine that runs programs: a heap, the frame that names are looked up in, and the output. An
action on it ends with a result or with a fault; the machine is as the action left it either way.
-/

namespace LoxLang

/-- Where `print` writes. A host may refuse a write, for what was written before it, or the final
flush. -/
structure Output where
  text : String
  refusal : String → Option String
  flushRefusal : Option String

namespace Output

/-- An output that takes everything. -/
def unlimited : Output :=
  ⟨"", fun _ => none, none⟩

def append (s : String) (o : Output) : Output :=
  { o with text := o.text ++ s }

end Output

structure Machine where
  heap : Heap
  current : Address
  output : Output
  /-- How many calls host functions have had. -/
  answered : Nat

/-- Why an action has no result. Being out of fuel tells nothing about the program. -/
inductive Fault where
  | runtime (e : RuntimeError)
  | output (message : String)
  | outOfFuel
deriving DecidableEq

abbrev Eval := EStateM Fault Machine

/-- What a host function sees: the heap, for the sake of printing, and how many calls host functions
have had before this one. -/
structure Sight extends Heap where
  answered : Nat

instance : Coe Sight Heap :=
  ⟨Sight.toHeap⟩

/-- A host function. It changes nothing, but may answer otherwise at each call. -/
structure Native where
  name : String
  arity : Nat
  run : Sight → List Value → Except String Value

/-- What a run is given: the host functions and the distances of the references. -/
structure Setting where
  natives : List Native
  distances : Scope.Distances

namespace Eval

variable {α : Type}

def fail (line : Nat) (cause : RuntimeCause) : Eval α :=
  throw (.runtime ⟨line, cause⟩)

/-- The outcome of a look-up, as one of the given line. -/
def onLine (line : Nat) : Except RuntimeCause α → Eval α
  | .ok a => pure a
  | .error cause => fail line cause

def getHeap : Eval Heap :=
  return (← get).heap

def getCurrent : Eval Address :=
  return (← get).current

def changeHeap (change : Heap → Heap) : Eval Unit :=
  modify fun m => { m with heap := change m.heap }

/-- Adds an object to the heap and tells its address, the first that was free. -/
def allocate (free : Heap → Address) (add : Heap → Heap) : Eval Address :=
  modifyGet fun m => (free m.heap, { m with heap := add m.heap })

def newFrame (f : Frame) : Eval Address :=
  allocate (·.frames.size) (Heap.addFrame f)

def newFunction (f : FunctionObject) : Eval Address :=
  allocate (·.functions.size) (Heap.addFunction f)

def newClass (c : ClassObject) : Eval Address :=
  allocate (·.classes.size) (Heap.addClass c)

def newInstance (i : Instance) : Eval Address :=
  allocate (·.instances.size) (Heap.addInstance i)

/-- What a host function sees that is called now. -/
def consult : Eval Sight :=
  modifyGet fun m => (⟨m.heap, m.answered⟩, { m with answered := m.answered + 1 })

/-- Runs an action in a frame, and goes back to the frame before it however the action ends. -/
def inFrame (frame : Address) (action : Eval α) : Eval α := fun m =>
  match action { m with current := frame } with
  | .ok a n => .ok a { n with current := m.current }
  | .error e n => .error e { n with current := m.current }

/-- Writes a text; nothing at all is no write. -/
def write (s : String) : Eval Unit := do
  if s.isEmpty then return ()
  else
    let refusal := (← get).output.refusal (← get).output.text
    match refusal with
    | some message => throw (.output message)
    | none => modify fun m => { m with output := m.output.append s }

def flush : Eval Unit := do
  match (← get).output.flushRefusal with
  | some message => throw (.output message)
  | none => return ()

/-- The frame that binds a reference: the one at its distance, or that of the globals. -/
def locate (σ : Setting) (ref : Reference) : Eval Address := do
  let m ← get
  onLine ref.name.line <|
    match σ.distances.lookup ref.id with
    | some distance => m.heap.locateAt m.current distance ref.name.lexeme
    | none => m.heap.locate Heap.globals ref.name.lexeme

def lookUp (σ : Setting) (ref : Reference) : Eval Value := do
  let f ← locate σ ref
  return (← getHeap).valueIn ref.name.lexeme f

def assignTo (σ : Setting) (ref : Reference) (value : Value) : Eval Unit := do
  let f ← locate σ ref
  changeHeap (Heap.define f ref.name.lexeme value)

end Eval

end LoxLang
