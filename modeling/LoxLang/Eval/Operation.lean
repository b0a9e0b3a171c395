import LoxLang.Store.Cause
import LoxLang.Store.Value
import LoxLang.Token.Basic

/-!
The operators on values. Numbers and texts are not converted into each other.
-/

namespace LoxLang

def unaryOperation (operator : Token) (v : Value) : Except RuntimeCause Value :=
  match operator.kind, v with
  | .minus, .number x => .ok (.number (-x))
  | .minus, _ => .error .operandNoNumber
  | .bang, v => .ok (.bool (!v.isTruthy))
  | _, _ => .error (.invalidUnary operator.lexeme)

/-- The operators that take two numbers. -/
def numberOperation (operator : Token) (x y : Float) : Except RuntimeCause Value :=
  match operator.kind with
  | .minus => .ok (.number (x - y))
  | .star => .ok (.number (x * y))
  | .slash => .ok (.number (x / y))
  | .greater => .ok (.bool (decide (y < x)))
  | .greaterEqual => .ok (.bool (decide (y ≤ x)))
  | .less => .ok (.bool (decide (x < y)))
  | .lessEqual => .ok (.bool (decide (x ≤ y)))
  | _ => .error (.invalidBinary operator.lexeme)

def addition : Value → Value → Except RuntimeCause Value
  | .number x, .number y => .ok (.number (x + y))
  | .text s, .text t => .ok (.text (s ++ t))
  | _, _ => .error .operandsNotAlike

def binaryOperation (operator : Token) (v w : Value) : Except RuntimeCause Value :=
  match operator.kind with
  | .plus => addition v w
  | .equalEqual => .ok (.bool (v.same w))
  | .bangEqual => .ok (.bool (!v.same w))
  | _ =>
    match v, w with
    | .number x, .number y => numberOperation operator x y
    | _, _ => .error .operandsNoNumbers

/-- Whether a logical operator's left operand is its result already. -/
def shortCircuits (operator : Token) (v : Value) : Bool :=
  if operator.kind = .kwOr then v.isTruthy else !v.isTruthy

end LoxLang
