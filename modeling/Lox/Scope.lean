import Lox.Table
import Lox.Diagnostic

/-!
# Scopes

The scopes around a point of a program, as far as they can be told from its text.  A `Scope` holds
the names declared in one block or function so far, and whether the declaration of each is
complete.  `Scopes` lists the scopes around a point, the innermost first.  The names of the whole
program are in no scope: they may be declared anywhere and any number of times.

The *distance* of a name is the number of scopes between the point and the scope that holds it.
-/

namespace Lox

/-- How far the declaration of a name has got. -/
inductive Declaration where
  /-- The name is known, its value is not. -/
  | begun
  | complete
deriving DecidableEq, Repr

/-- The names declared in one block or function. -/
abbrev Scope := Table Declaration

/-- The scopes around a point of a program, the innermost first. -/
abbrev Scopes := List Scope

inductive ScopeFault where
  | alreadyDeclared
  | readInInitializer
  | returnOutsideFunction
  | valueFromInitializer
  | thisOutsideClass
  | superOutsideClass
  | superWithoutSuperclass
  | inheritsFromItself
deriving DecidableEq, Repr

def ScopeFault.message : ScopeFault → String
  | .alreadyDeclared => "Already a variable with this name in this scope."
  | .readInInitializer => "Can't read local variable in its own initializer."
  | .returnOutsideFunction => "Can't return from top-level code."
  | .valueFromInitializer => "Can't return a value from an initializer."
  | .thisOutsideClass => "Can't use 'this' outside of a class."
  | .superOutsideClass => "Can't use 'super' outside of a class."
  | .superWithoutSuperclass => "Can't use 'super' in a class with no superclass."
  | .inheritsFromItself => "A class can't inherit from itself."

structure ScopeError where
  fault : ScopeFault
  culprit : Token
deriving DecidableEq, Repr

def ScopeError.diagnostic (e : ScopeError) : Diagnostic := .scoping e.fault.message e.culprit

namespace Scopes

def distance? : Scopes → String → Option Nat
  | [], _ => none
  | scope :: outer, name =>
    if scope.has name then some 0 else (distance? outer name).map (· + 1)

@[simp] theorem distance?_nil (name : String) : distance? [] name = none := rfl

theorem distance?_cons (scope : Scope) (outer : Scopes) (name : String) :
    distance? (scope :: outer) name =
      if scope.has name then some 0 else (distance? outer name).map (· + 1) := rfl

def declare : Scopes → String → Scopes
  | [], _ => []
  | scope :: outer, name => (if scope.has name then scope else scope.set name .begun) :: outer

/-- Is a declaration of the name in the innermost scope a second one? -/
def declares : Scopes → String → Bool
  | [], _ => false
  | scope :: _, name => scope.has name

def define : Scopes → String → Scopes
  | [], _ => []
  | scope :: outer, name => scope.set name .complete :: outer

/-- Is the point inside the declaration of the name in the innermost scope? -/
def isBegun : Scopes → String → Bool
  | [], _ => false
  | scope :: _, name => scope.get? name == some .begun

end Scopes

end Lox
