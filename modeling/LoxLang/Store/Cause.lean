/-!
Why a running program stops.
-/

namespace LoxLang

inductive RuntimeCause where
  | undefinedVariable (name : String)
  | missingAtDistance (name : String) (distance : Nat)
  | chainTooShort (distance : Nat)
  | undefinedProperty (name : String)
  | noInstanceToRead
  | noInstanceToWrite
  | notCallable
  | wrongCount (expected got : Nat)
  | operandNoNumber
  | operandsNoNumbers
  | operandsNotAlike
  | invalidUnary (lexeme : String)
  | invalidBinary (lexeme : String)
  | superclassNoClass
  | unresolvedSuper
  | malformedSuper
  | native (message : String)
deriving DecidableEq

def RuntimeCause.message : RuntimeCause → String
  | undefinedVariable name => "Undefined variable '" ++ name ++ "'."
  | missingAtDistance name distance =>
    "Resolved variable '" ++ name ++ "' missing at depth " ++ toString distance ++ "."
  | chainTooShort distance => "Scope chain shorter than " ++ toString distance ++ " hop(s)."
  | undefinedProperty name => "Undefined property '" ++ name ++ "'."
  | noInstanceToRead => "Only instances have properties."
  | noInstanceToWrite => "Only instances have fields."
  | notCallable => "Can only call functions and classes."
  | wrongCount expected got =>
    "Expected " ++ toString expected ++ " arguments but got " ++ toString got ++ "."
  | operandNoNumber => "Operand must be a number."
  | operandsNoNumbers => "Operands must be numbers."
  | operandsNotAlike => "Operands must be two numbers or two strings."
  | invalidUnary lexeme => "Invalid unary operator '" ++ lexeme ++ "'."
  | invalidBinary lexeme => "Invalid binary operator '" ++ lexeme ++ "'."
  | superclassNoClass => "Superclass must be a class."
  | unresolvedSuper => "Unresolved 'super' expression."
  | malformedSuper => "Malformed 'super' or 'this' binding."
  | native message => message

structure RuntimeError where
  line : Nat
  cause : RuntimeCause
deriving DecidableEq

end LoxLang
