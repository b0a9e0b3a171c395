import LoxLang.Proofs.Scope.Surroundings

/-!
What no program may do, said of a place in its tree and of the constructs around it, with no walk in
it. A place is a node that some rule is about; the places of a program are listed in the order of its
text.
-/

namespace LoxLang

namespace Scope

/-- A construct around a place. Blocks and functions have a scope each, in which names have been
declared before the place. -/
inductive Around where
  | block (declared : List String)
  | function (asMethod : Bool) (name : String) (declared : List String)
  | initializer (name : String)
  | classBody (derived : Bool)
deriving DecidableEq

/-- The constructs around a place, the innermost first. -/
abbrev Path := List Around

namespace Path

/-- The local variable that the place is in the initializer of, with no function between them. -/
def initializing? : Path → Option String
  | .initializer name :: _ :: _ => some name
  | _ => none

/-- The names declared before in the local scope that the place stands in. -/
def declared : Path → List String
  | .block names :: _ => names
  | .function _ _ names :: _ => names
  | _ => []

/-- The nearest function around: whether it is a method, and its name. -/
def function? : Path → Option (Bool × String)
  | [] => none
  | .function asMethod name _ :: _ => some (asMethod, name)
  | .block _ :: p => function? p
  | .initializer _ :: p => function? p
  | .classBody _ :: p => function? p

/-- Whether the nearest class around has a superclass. -/
def class? : Path → Option Bool
  | [] => none
  | .classBody derived :: _ => some derived
  | .block _ :: p => class? p
  | .function _ _ _ :: p => class? p
  | .initializer _ :: p => class? p

/-- The place after a declaration of names. -/
def behind (names : List String) : Path → Path
  | .block before :: p => .block (before ++ names) :: p
  | .function asMethod name before :: p => .function asMethod name (before ++ names) :: p
  | p => p

end Path

/-- What the rules are about. -/
inductive Site where
  | read (ref : Reference)
  | declaration (name : Token)
  | inheritance (name : Token) (superclass : Reference)
  | ret (keyword : Token) (hasValue : Bool)
  | this (ref : Reference)
  | super (ref : Reference)
deriving DecidableEq

structure Place where
  site : Site
  path : Path
deriving DecidableEq

/-- The rules: which places are in error, at which token, and why. -/
inductive Violates : Place → StaticError → Prop
  | readInInitializer {ref p} (h : Path.initializing? p = some ref.name.lexeme) :
    Violates ⟨.read ref, p⟩ ⟨ref.name, .readInInitializer⟩
  | declaredTwice {name p} (h : name.lexeme ∈ Path.declared p) :
    Violates ⟨.declaration name, p⟩ ⟨name, .declaredTwice⟩
  | returnOutside {keyword hasValue p} (h : Path.function? p = none) :
    Violates ⟨.ret keyword hasValue, p⟩ ⟨keyword, .returnOutside⟩
  | returnsValue {keyword p} (h : Path.function? p = some (true, FunctionDecl.initializerName)) :
    Violates ⟨.ret keyword true, p⟩ ⟨keyword, .returnsValue⟩
  | thisOutside {ref p} (h : Path.class? p = none) :
    Violates ⟨.this ref, p⟩ ⟨ref.name, .thisOutside⟩
  | superOutside {ref p} (h : Path.class? p = none) :
    Violates ⟨.super ref, p⟩ ⟨ref.name, .superOutside⟩
  | superInBase {ref p} (h : Path.class? p = some false) :
    Violates ⟨.super ref, p⟩ ⟨ref.name, .superInBase⟩
  | inheritsItself {name superclass p} (h : superclass.name.lexeme = name.lexeme) :
    Violates ⟨.inheritance name superclass, p⟩ ⟨superclass.name, .inheritsItself⟩

/-- The error of a place that violates a rule. -/
def Place.error? : Place → Option StaticError
  | ⟨.read ref, p⟩ =>
    if Path.initializing? p = some ref.name.lexeme then some ⟨ref.name, .readInInitializer⟩ else none
  | ⟨.declaration name, p⟩ =>
    if name.lexeme ∈ Path.declared p then some ⟨name, .declaredTwice⟩ else none
  | ⟨.inheritance name superclass, _⟩ =>
    if superclass.name.lexeme = name.lexeme then some ⟨superclass.name, .inheritsItself⟩ else none
  | ⟨.ret keyword hasValue, p⟩ =>
    if Path.function? p = none then some ⟨keyword, .returnOutside⟩
    else if hasValue = true ∧ Path.function? p = some (true, FunctionDecl.initializerName) then
      some ⟨keyword, .returnsValue⟩
    else none
  | ⟨.this ref, p⟩ => if Path.class? p = none then some ⟨ref.name, .thisOutside⟩ else none
  | ⟨.super ref, p⟩ =>
    match Path.class? p with
    | none => some ⟨ref.name, .superOutside⟩
    | some false => some ⟨ref.name, .superInBase⟩
    | some true => none

/-- No place violates two rules, so that it has at most one error. -/
theorem Place.error?_eq_some_iff (place : Place) (error : StaticError) :
    place.error? = some error ↔ Violates place error := by
  constructor
  · intro h
    obtain ⟨site, p⟩ := place
    cases site <;> simp only [error?] at h
    case read ref =>
      split at h <;> cases h
      exact .readInInitializer ‹_›
    case declaration name =>
      split at h <;> cases h
      exact .declaredTwice ‹_›
    case inheritance name superclass =>
      split at h <;> cases h
      exact .inheritsItself ‹_›
    case ret keyword hasValue =>
      split at h
      · cases h
        exact .returnOutside ‹_›
      · split at h <;> cases h
        obtain ⟨rfl, hinit⟩ := ‹_ ∧ _›
        exact .returnsValue hinit
    case this ref =>
      split at h <;> cases h
      exact .thisOutside ‹_›
    case super ref =>
      split at h <;> cases h
      · exact .superOutside ‹_›
      · exact .superInBase ‹_›
  · intro h
    cases h with
    | readInInitializer h => exact if_pos h
    | declaredTwice h => exact if_pos h
    | returnOutside h => exact if_pos h
    | returnsValue h => simp [error?, h]
    | thisOutside h => exact if_pos h
    | superOutside h => simp [error?, h]
    | superInBase h => simp [error?, h]
    | inheritsItself h => exact if_pos h

/-- Parameters are declared one after the other in the scope of their function. -/
def placesParams : List Token → Path → List Place
  | [], _ => []
  | name :: rest, p => ⟨.declaration name, p⟩ :: placesParams rest (p.behind [name.lexeme])

end Scope

open Scope

mutual

def Expr.places : Expr → Path → List Place
  | .literal _, _ => []
  | .group inner, p => inner.places p
  | .unary _ right, p => right.places p
  | .binary left _ right, p => left.places p ++ right.places p
  | .logical left _ right, p => left.places p ++ right.places p
  | .ident ref, p => [⟨.read ref, p⟩]
  | .assign _ value, p => value.places p
  | .call callee _ arguments, p => callee.places p ++ placesExprs arguments p
  | .function decl, p => decl.places false p
  | .get object _, p => object.places p
  | .set object _ value, p => object.places p ++ value.places p
  | .this ref, p => [⟨.this ref, p⟩]
  | .super ref _, p => [⟨.super ref, p⟩]

def placesExprs : List Expr → Path → List Place
  | [], _ => []
  | e :: rest, p => e.places p ++ placesExprs rest p

def FunctionDecl.places : FunctionDecl → Bool → Path → List Place
  | .mk name line params body, asMethod, p =>
    let inside : Path := .function asMethod (FunctionDecl.mk name line params body).name [] :: p
    placesParams params inside ++ placesStmts body (inside.behind (params.map Token.lexeme))

def Stmt.places : Stmt → Path → List Place
  | .expr value, p => value.places p
  | .print value, p => value.places p
  | .var name none, p => [⟨.declaration name, p⟩]
  | .var name (some value), p =>
    ⟨.declaration name, p⟩ :: value.places (.initializer name.lexeme :: p)
  | .block body, p => placesStmts body (.block [] :: p)
  | .branch condition thenBranch none, p => condition.places p ++ thenBranch.places p
  | .branch condition thenBranch (some elseBranch), p =>
    condition.places p ++
      (thenBranch.places p ++ elseBranch.places (Path.behind thenBranch.declares p))
  | .loop condition body, p => condition.places p ++ body.places p
  | .function decl, p =>
    match decl.name? with
    | some name => ⟨.declaration name, p⟩ :: decl.places false p
    | none => decl.places false p
  | .ret keyword none, p => [⟨.ret keyword false, p⟩]
  | .ret keyword (some value), p => ⟨.ret keyword true, p⟩ :: value.places p
  | .classDecl name none methods, p =>
    ⟨.declaration name, p⟩ :: placesMethods methods (.classBody false :: p)
  | .classDecl name (some superclass) methods, p =>
    ⟨.declaration name, p⟩ :: ⟨.inheritance name superclass, p⟩ :: ⟨.read superclass, p⟩ ::
      placesMethods methods (.classBody true :: p)

def placesStmts : List Stmt → Path → List Place
  | [], _ => []
  | s :: rest, p => s.places p ++ placesStmts rest (Path.behind s.declares p)

def placesMethods : List FunctionDecl → Path → List Place
  | [], _ => []
  | d :: rest, p => d.places true p ++ placesMethods rest p

end

end LoxLang
