import LoxLang.Bindings
import LoxLang.Syntax.Tree

/-!
The context of the static walk over a program: the local scopes that are open, innermost first, the
kinds of function and class that surround the place, and what has been found so far. A name in a scope
is ready once it may be read there.
-/

namespace LoxLang.Scope

/-- The function body that a place is in. -/
inductive FunctionKind where
  | none
  | function
  | method
  | initializer
deriving DecidableEq

/-- The class body that a place is in. -/
inductive ClassKind where
  | none
  | base
  | derived
deriving DecidableEq

inductive Cause where
  | readInInitializer
  | declaredTwice
  | returnOutside
  | returnsValue
  | thisOutside
  | superOutside
  | superInBase
  | inheritsItself
deriving DecidableEq

def Cause.message : Cause → String
  | readInInitializer => "Can't read local variable in its own initializer."
  | declaredTwice => "Already a variable with this name in this scope."
  | returnOutside => "Can't return from top-level code."
  | returnsValue => "Can't return a value from an initializer."
  | thisOutside => "Can't use 'this' outside of a class."
  | superOutside => "Can't use 'super' outside of a class."
  | superInBase => "Can't use 'super' in a class with no superclass."
  | inheritsItself => "A class can't inherit from itself."

/-- A static error and the token that it is reported at. -/
structure StaticError where
  token : Token
  cause : Cause
deriving DecidableEq

/-- The distances of references from their bindings: identities with the number of scopes between.
What has no entry is global. -/
abbrev Distances := List (Identity × Nat)

structure Context where
  scopes : List (Bindings Bool)
  functionKind : FunctionKind
  classKind : ClassKind
  errors : List StaticError
  distances : Distances

namespace Context

/-- The context of a program before its first statement. -/
def initial : Context :=
  ⟨[], .none, .none, [], []⟩

def report (token : Token) (cause : Cause) (c : Context) : Context :=
  { c with errors := c.errors ++ [⟨token, cause⟩] }

def openScope (c : Context) : Context :=
  { c with scopes := [] :: c.scopes }

def closeScope (c : Context) : Context :=
  { c with scopes := c.scopes.tail }

/-- Marks a name in the innermost scope; at the top level nothing is marked. -/
def mark (name : String) (ready : Bool) (c : Context) : Context :=
  match c.scopes with
  | [] => c
  | scope :: outer => { c with scopes := scope.insert name ready :: outer }

/-- Whether the innermost scope has a name, and whether it is ready. -/
def innermost? (name : String) (c : Context) : Option Bool :=
  match c.scopes with
  | [] => none
  | scope :: _ => scope.find? name

/-- Declares a name, which is not ready yet. -/
def declare (name : Token) (c : Context) : Context :=
  let marked := c.mark name.lexeme false
  if (c.innermost? name.lexeme).isSome then marked.report name .declaredTwice else marked

/-- Makes a declared name ready. -/
def define (name : Token) (c : Context) : Context :=
  c.mark name.lexeme true

/-- The number of scopes between the innermost one and the first that has a name. -/
def distance? (name : String) (c : Context) : Option Nat :=
  c.scopes.findIdx? (·.contains name)

/-- Enters the distance of a reference, unless it is global. -/
def bind (ref : Reference) (c : Context) : Context :=
  match c.distance? ref.name.lexeme with
  | some d => { c with distances := (ref.id, d) :: c.distances }
  | none => c

end Context

end LoxLang.Scope
