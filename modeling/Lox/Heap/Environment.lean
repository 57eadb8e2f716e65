import Lox.Table
import Lox.Value

/-!
# Environments

An `Environment` holds the values of the names of one scope during execution and refers to the
environment of the enclosing scope.  A `Forest` holds all environments that were ever made.

A name is looked up in two ways: in the nearest environment outward that holds it, or in the
environment at a certain distance.  Both first find the environment and then read it or write to
it, so a write changes one entry of one environment.

Environments are numbered as they are made, and an environment is enclosed by an older one.  The
search outward uses this for its bound: there are only as many steps to take as there are older
environments.
-/

namespace Lox

structure Environment where
  bindings : Table Value
  enclosing : Option EnvironmentId
deriving Repr, Inhabited

structure Forest where
  environments : Array Environment
deriving Repr

namespace Forest

def empty : Forest := ⟨#[]⟩

def next (f : Forest) : EnvironmentId := ⟨f.environments.size⟩

def grow (f : Forest) (enclosing : Option EnvironmentId) : Forest :=
  ⟨f.environments.push ⟨[], enclosing⟩⟩

def environment? (f : Forest) (id : EnvironmentId) : Option Environment :=
  f.environments[id.index]?

def enclosing? (f : Forest) (id : EnvironmentId) : Option EnvironmentId :=
  (f.environment? id).bind Environment.enclosing

/-- The value that an environment itself holds for a name. -/
def own? (f : Forest) (id : EnvironmentId) (name : String) : Option Value :=
  (f.environment? id).bind fun e => e.bindings.get? name

def define (f : Forest) (id : EnvironmentId) (name : String) (value : Value) : Forest :=
  ⟨f.environments.modify id.index fun e => { e with bindings := e.bindings.set name value }⟩

def defineAll (f : Forest) (id : EnvironmentId) : List (String × Value) → Forest
  | [] => f
  | (name, value) :: rest => (f.define id name value).defineAll id rest

/-- The nearest environment outward that holds a name, among the first `bound`. -/
def holderWithin? (f : Forest) : (bound : Nat) → EnvironmentId → String → Option EnvironmentId
  | 0, _, _ => none
  | bound + 1, id, name =>
    if (f.own? id name).isSome then some id
    else (f.enclosing? id).bind fun outer => f.holderWithin? bound outer name

def holder? (f : Forest) (id : EnvironmentId) (name : String) : Option EnvironmentId :=
  f.holderWithin? (id.index + 1) id name

def ancestor? (f : Forest) (id : EnvironmentId) : (distance : Nat) → Option EnvironmentId
  | 0 => some id
  | distance + 1 => (f.enclosing? id).bind fun outer => f.ancestor? outer distance

def holderAt? (f : Forest) (id : EnvironmentId) (distance : Nat) (name : String) :
    Option EnvironmentId :=
  (f.ancestor? id distance).filter fun e => (f.own? e name).isSome

/-- The value of a name in the nearest environment outward that holds it. -/
def get? (f : Forest) (id : EnvironmentId) (name : String) : Option Value :=
  (f.holder? id name).bind fun e => f.own? e name

def getAt? (f : Forest) (id : EnvironmentId) (distance : Nat) (name : String) : Option Value :=
  (f.ancestor? id distance).bind fun e => f.own? e name

/-- Overwrites the value of a name in the nearest environment outward that holds it. -/
def assign? (f : Forest) (id : EnvironmentId) (name : String) (value : Value) : Option Forest :=
  (f.holder? id name).map fun e => f.define e name value

def assignAt? (f : Forest) (id : EnvironmentId) (distance : Nat) (name : String) (value : Value) :
    Option Forest :=
  (f.holderAt? id distance name).map fun e => f.define e name value

/-! `define` changes what one environment holds for one name, and no enclosing environment. -/

theorem environment?_define (f : Forest) (id e : EnvironmentId) (name : String) (value : Value) :
    (f.define id name value).environment? e =
      (f.environment? e).map fun c =>
        if id = e then { c with bindings := c.bindings.set name value } else c := by
  by_cases h : id = e
  · subst h
    simp [environment?, define, Array.getElem?_modify]
  · have hi : id.index ≠ e.index := fun he => h (by cases id; cases e; simp_all)
    simp [environment?, define, Array.getElem?_modify, hi, h]

@[simp] theorem enclosing?_define (f : Forest) (id e : EnvironmentId) (name : String)
    (value : Value) : (f.define id name value).enclosing? e = f.enclosing? e := by
  rw [enclosing?, enclosing?, environment?_define]
  cases f.environment? e with
  | none => rfl
  | some c => by_cases h : id = e <;> simp [h]

theorem own?_define_self (f : Forest) (id : EnvironmentId) (name : String) (value : Value)
    (h : (f.environment? id).isSome) : (f.define id name value).own? id name = some value := by
  obtain ⟨c, hc⟩ := Option.isSome_iff_exists.1 h
  simp [own?, environment?_define, hc]

theorem own?_define_of_ne (f : Forest) {id e : EnvironmentId} {name other : String}
    (value : Value) (h : e ≠ id ∨ other ≠ name) :
    (f.define id name value).own? e other = f.own? e other := by
  rw [own?, own?, environment?_define]
  cases f.environment? e with
  | none => rfl
  | some c =>
    by_cases he : id = e
    · have hn : other ≠ name := h.resolve_left fun hne => hne he.symm
      simp [he, Table.get?_set_of_ne _ _ hn]
    · simp [he]

end Forest

end Lox
