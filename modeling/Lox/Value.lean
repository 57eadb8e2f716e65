import Lox.Number.Text

/-!
# Values

What a program computes with.  Functions, classes and objects have an identity: a value refers to
one by its number in the heap.
-/

namespace Lox

structure EnvironmentId where
  index : Nat
deriving DecidableEq, Repr

structure NativeId where
  index : Nat
deriving DecidableEq, Repr

structure FunctionId where
  index : Nat
deriving DecidableEq, Repr

structure ClassId where
  index : Nat
deriving DecidableEq, Repr

/-- The number of an object, which is an instance of a class. -/
structure ObjectId where
  index : Nat
deriving DecidableEq, Repr

inductive Value where
  | nil
  | bool (b : Bool)
  | number (x : Float)
  | string (s : String)
  | native (id : NativeId)
  | function (id : FunctionId)
  | class (id : ClassId)
  | object (id : ObjectId)
deriving DecidableEq, Repr, Inhabited

namespace Value

/-- Does the value count as true?  Only `nil` and `false` do not. -/
def truthy : Value → Bool
  | .nil => false
  | .bool b => b
  | _ => true

/-- Equality of the language.  Values of different types differ, numbers are compared as numbers
(so that one that is not a number differs from itself), and what has an identity is equal to
itself only. -/
def equals : Value → Value → Bool
  | .nil, .nil => true
  | .bool a, .bool b => a == b
  | .number a, .number b => a == b
  | .string a, .string b => a == b
  | .native a, .native b => a = b
  | .function a, .function b => a = b
  | .class a, .class b => a = b
  | .object a, .object b => a = b
  | _, _ => false

end Value

end Lox
