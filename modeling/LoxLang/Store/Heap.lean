import LoxLang.Bindings
import LoxLang.Store.Value
import LoxLang.Syntax.Tree

/-!
The heap: frames of bindings, functions with the frame that they were made in, classes and instances.
Objects are only ever added, at the next address. A frame's link to the frame around it and a class's
link to its superclass are set when it is made and lead to an older object.
-/

namespace LoxLang

/-- What a frame was opened for. -/
inductive Origin where
  | globals
  | block (body : List Stmt)
  | call (decl : FunctionDecl)
  | receiver
  | superclass

structure Frame where
  bindings : Bindings Value
  enclosing : Option Address
  origin : Origin

instance : Inhabited Frame :=
  ⟨[], none, .globals⟩

structure FunctionObject where
  decl : FunctionDecl
  /-- The frame that surrounds the frames of its calls. -/
  closure : Address
  isInitializer : Bool
deriving Inhabited

structure ClassObject where
  name : String
  superclass : Option Address
  /-- The methods that the class itself declares. -/
  methods : Bindings Address
deriving Inhabited

structure Instance where
  classAddress : Address
  fields : Bindings Value
deriving Inhabited

structure Heap where
  frames : Array Frame
  functions : Array FunctionObject
  classes : Array ClassObject
  instances : Array Instance

namespace Heap

/-- A heap with nothing but an empty frame for globals. -/
def initial : Heap :=
  ⟨#[⟨[], none, .globals⟩], #[], #[], #[]⟩

/-- The address of the frame for globals. -/
def globals : Address :=
  0

def frame (h : Heap) (a : Address) : Frame :=
  h.frames.getD a default

def function (h : Heap) (a : Address) : FunctionObject :=
  h.functions.getD a default

def classObject (h : Heap) (a : Address) : ClassObject :=
  h.classes.getD a default

def instanceObject (h : Heap) (a : Address) : Instance :=
  h.instances.getD a default

def addFrame (f : Frame) (h : Heap) : Heap :=
  { h with frames := h.frames.push f }

def addFunction (f : FunctionObject) (h : Heap) : Heap :=
  { h with functions := h.functions.push f }

def addClass (c : ClassObject) (h : Heap) : Heap :=
  { h with classes := h.classes.push c }

def addInstance (i : Instance) (h : Heap) : Heap :=
  { h with instances := h.instances.push i }

/-- Binds a name in a frame, over the binding that it has there. -/
def define (a : Address) (name : String) (value : Value) (h : Heap) : Heap :=
  { h with frames := h.frames.modify a fun f => { f with bindings := f.bindings.insert name value } }

/-- Gives a field of an instance a value. -/
def setField (a : Address) (name : String) (value : Value) (h : Heap) : Heap :=
  { h with instances := h.instances.modify a fun i => { i with fields := i.fields.insert name value } }

/-- At most `n` frames, from one outwards. -/
def chainUpTo (h : Heap) : Nat → Address → List Address
  | 0, _ => []
  | n + 1, a =>
    a :: match (h.frame a).enclosing with
      | some outer => chainUpTo h n outer
      | none => []

/-- The frames from one outwards. Links lead to older frames, so there are no more than the address
allows. -/
def chain (h : Heap) (a : Address) : List Address :=
  h.chainUpTo (a + 1) a

/-- At most `n` classes, from one up. -/
def lineageUpTo (h : Heap) : Nat → Address → List Address
  | 0, _ => []
  | n + 1, a =>
    a :: match (h.classObject a).superclass with
      | some up => lineageUpTo h n up
      | none => []

/-- A class, its superclass, and so on. -/
def lineage (h : Heap) (a : Address) : List Address :=
  h.lineageUpTo (a + 1) a

/-- The method of a name that a class has or inherits. -/
def findMethod? (h : Heap) (a : Address) (name : String) : Option Address :=
  (h.lineage a).findSome? fun c => (h.classObject c).methods.find? name

end Heap

end LoxLang
