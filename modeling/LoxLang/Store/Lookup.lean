import LoxLang.Store.Cause
import LoxLang.Store.Heap

/-!
Reading and writing variables. `get` and `assign` search the frames outwards for a name; `getAt` and
`assignAt` go a known number of frames out and look there only. Neither way of writing makes a new
binding.
-/

namespace LoxLang.Heap

/-- The nearest frame, from one outwards, that binds a name. -/
def locate (h : Heap) (a : Address) (name : String) : Except RuntimeCause Address :=
  match (h.chain a).find? fun f => (h.frame f).bindings.contains name with
  | some f => .ok f
  | none => .error (.undefinedVariable name)

/-- The frame `distance` links out, if it binds a name. -/
def locateAt (h : Heap) (a : Address) (distance : Nat) (name : String) :
    Except RuntimeCause Address :=
  match (h.chain a)[distance]? with
  | none => .error (.chainTooShort distance)
  | some f =>
    if (h.frame f).bindings.contains name then .ok f else .error (.missingAtDistance name distance)

/-- The value of a name in a frame that binds it. -/
def valueIn (h : Heap) (name : String) (f : Address) : Value :=
  ((h.frame f).bindings.find? name).getD .nil

def get (h : Heap) (a : Address) (name : String) : Except RuntimeCause Value :=
  (h.locate a name).map (h.valueIn name)

def getAt (h : Heap) (a : Address) (distance : Nat) (name : String) : Except RuntimeCause Value :=
  (h.locateAt a distance name).map (h.valueIn name)

def assign (h : Heap) (a : Address) (name : String) (value : Value) : Except RuntimeCause Heap :=
  (h.locate a name).map fun f => h.define f name value

def assignAt (h : Heap) (a : Address) (distance : Nat) (name : String) (value : Value) :
    Except RuntimeCause Heap :=
  (h.locateAt a distance name).map fun f => h.define f name value

end LoxLang.Heap
