import LoxLang.Token.Basic

/-!
Syntax trees. Expressions that name a binding carry an identity, so that two occurrences of a name
are told apart; no other node has one. A `for` statement has no node of its own.
-/

namespace LoxLang

inductive Literal where
  | number (x : Float)
  | text (s : String)
  | bool (b : Bool)
  | nil

/-- What tells occurrences of one name apart: words counted up, with zero after the last of them. -/
abbrev Identity := UInt64

/-- An occurrence of a name that is to be bound: its identity and its token. -/
structure Reference where
  id : Identity
  name : Token
deriving DecidableEq

mutual

inductive Expr where
  | literal (value : Literal)
  | group (inner : Expr)
  | unary (operator : Token) (right : Expr)
  | binary (left : Expr) (operator : Token) (right : Expr)
  | logical (left : Expr) (operator : Token) (right : Expr)
  | ident (ref : Reference)
  | assign (ref : Reference) (value : Expr)
  /-- A call; its closing parenthesis gives the line of its errors. -/
  | call (callee : Expr) (paren : Token) (arguments : List Expr)
  | function (decl : FunctionDecl)
  | get (object : Expr) (name : Token)
  | set (object : Expr) (name : Token) (value : Expr)
  | this (ref : Reference)
  | super (ref : Reference) (method : Token)

/-- A function: its name unless it is anonymous, its line, its parameters and its body. -/
inductive FunctionDecl where
  | mk (name : Option Token) (line : Nat) (params : List Token) (body : List Stmt)

inductive Stmt where
  | expr (value : Expr)
  | print (value : Expr)
  | var (name : Token) (initializer : Option Expr)
  | block (body : List Stmt)
  | branch (condition : Expr) (thenBranch : Stmt) (elseBranch : Option Stmt)
  | loop (condition : Expr) (body : Stmt)
  | function (decl : FunctionDecl)
  | ret (keyword : Token) (value : Option Expr)
  | classDecl (name : Token) (superclass : Option Reference) (methods : List FunctionDecl)

end

namespace FunctionDecl

def name? : FunctionDecl → Option Token
  | mk name _ _ _ => name

/-- The line of the name, or of the keyword that begins an anonymous function. -/
def line : FunctionDecl → Nat
  | mk _ line _ _ => line

def params : FunctionDecl → List Token
  | mk _ _ params _ => params

def body : FunctionDecl → List Stmt
  | mk _ _ _ body => body

/-- The name that a function is known by. -/
def name (d : FunctionDecl) : String :=
  match d.name? with
  | some t => t.lexeme
  | none => "anonymous"

/-- Methods of this name set up new instances. -/
def initializerName : String :=
  "init"

def isInitializer (d : FunctionDecl) : Bool :=
  d.name == initializerName

end FunctionDecl

instance : Inhabited FunctionDecl :=
  ⟨.mk none 0 [] []⟩

/-- The line that stands for an expression in diagnostics; literals have none. -/
def Expr.line : Expr → Nat
  | .literal _ => 0
  | .group inner => inner.line
  | .unary operator _ => operator.line
  | .binary _ operator _ => operator.line
  | .logical _ operator _ => operator.line
  | .ident ref => ref.name.line
  | .assign ref _ => ref.name.line
  | .call _ paren _ => paren.line
  | .function decl => decl.line
  | .get _ name => name.line
  | .set _ name _ => name.line
  | .this ref => ref.name.line
  | .super ref _ => ref.name.line

end LoxLang
