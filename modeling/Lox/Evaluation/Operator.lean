import Lox.Value
import Lox.Evaluation.Fault

/-!
# Operators

The operators on values.  What an operator does depends on its kind alone; its lexeme only appears
in messages.
-/

namespace Lox

namespace Value

def unary (operator : Token) (right : Value) : Except RuntimeError Value :=
  match operator.kind with
  | .symbol .minus =>
    match right with
    | .number x => .ok (.number (-x))
    | _ => .error ⟨.operandNotNumber, operator⟩
  | .symbol .bang => .ok (.bool (!right.truthy))
  | _ => .error ⟨.invalidUnaryOperator, operator⟩

def arithmetic (operator : Token) (a b : Float) : Except RuntimeError Value :=
  match operator.kind with
  | .symbol .minus => .ok (.number (a - b))
  | .symbol .star => .ok (.number (a * b))
  | .symbol .slash => .ok (.number (a / b))
  | .symbol .greater => .ok (.bool (a > b))
  | .symbol .greaterEqual => .ok (.bool (a ≥ b))
  | .symbol .less => .ok (.bool (a < b))
  | .symbol .lessEqual => .ok (.bool (a ≤ b))
  | _ => .error ⟨.invalidBinaryOperator, operator⟩

/-- Applies a binary operator.  Any two values can be compared for equality; strings can be added;
everything else is for numbers. -/
def binary (operator : Token) (left right : Value) : Except RuntimeError Value :=
  match operator.kind with
  | .symbol .equalEqual => .ok (.bool (left.equals right))
  | .symbol .bangEqual => .ok (.bool (!left.equals right))
  | .symbol .plus =>
    match left, right with
    | .number a, .number b => .ok (.number (a + b))
    | .string a, .string b => .ok (.string (a ++ b))
    | _, _ => .error ⟨.operandsNotAddable, operator⟩
  | _ =>
    match left, right with
    | .number a, .number b => arithmetic operator a b
    | _, _ => .error ⟨.operandsNotNumbers, operator⟩

/-- Does a logical operator stop at this left operand?  An `or` stops at a true value, any other
operator at a false one. -/
def decides (operator : Token) (left : Value) : Bool :=
  match operator.kind with
  | .keyword .or => left.truthy
  | _ => !left.truthy

end Value

end Lox
