import Lox.Diagnostic

/-!
# Run-time errors

What can go wrong while a program is executed.  A `RuntimeFault` is the cause, a `RuntimeError`
adds the token at which it shows; messages about names and operators quote that token.
-/

namespace Lox

inductive RuntimeFault where
  | undefinedVariable
  | undefinedProperty
  | operandNotNumber
  | operandsNotNumbers
  | operandsNotAddable
  | invalidUnaryOperator
  | invalidBinaryOperator
  | notCallable
  | wrongArity (expected given : Nat)
  | propertyOfNonObject
  | fieldOfNonObject
  | superclassNotClass
  | superOutsideMethod
deriving DecidableEq, Repr

structure RuntimeError where
  fault : RuntimeFault
  culprit : Token
deriving DecidableEq, Repr

def RuntimeError.message (e : RuntimeError) : String :=
  match e.fault with
  | .undefinedVariable => "Undefined variable '" ++ e.culprit.lexeme ++ "'."
  | .undefinedProperty => "Undefined property '" ++ e.culprit.lexeme ++ "'."
  | .operandNotNumber => "Operand must be a number."
  | .operandsNotNumbers => "Operands must be numbers."
  | .operandsNotAddable => "Operands must be two numbers or two strings."
  | .invalidUnaryOperator => "Invalid unary operator '" ++ e.culprit.lexeme ++ "'."
  | .invalidBinaryOperator => "Invalid binary operator '" ++ e.culprit.lexeme ++ "'."
  | .notCallable => "Can only call functions and classes."
  | .wrongArity expected given =>
    "Expected " ++ toString expected ++ " arguments but got " ++ toString given ++ "."
  | .propertyOfNonObject => "Only instances have properties."
  | .fieldOfNonObject => "Only instances have fields."
  | .superclassNotClass => "Superclass must be a class."
  | .superOutsideMethod => "Can't use 'super' outside of a method."

def RuntimeError.diagnostic (e : RuntimeError) : Diagnostic := .runtime e.message e.culprit

end Lox
