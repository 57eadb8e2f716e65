import Mathlib.Data.List.Nodup
import Lox.Proofs.Program.Node
import Lox.Grammar.Fault

/-!
# Where the nodes of a program stand

An `Enclosure` is a construct of the text that has a scope: the body of a block or of a function,
with those of its statements that start before a place in it, and around the methods of a class what
holds `this` and, if the class has a superclass, what holds `super`.  `occurrences` lists the nodes
of a program, each with the constructs around it, the innermost first.  Nothing of this refers to
the walk of the static analysis: it is read off the tree.

The *lexical distance* of a name at a place is the number of constructs strictly inside the
innermost one that binds the name.
-/

namespace Lox

/-- The names that a statement declares in the scope it stands in. -/
def Stmt.introduced : Stmt → List Token
  | .var name _ => [name]
  | .function declaration => [declaration.name]
  | .class name _ _ => [name]
  | _ => []

def Stmt.introducedAll (statements : List Stmt) : List Token := statements.flatMap Stmt.introduced

/-- What the statements of a body belong to. -/
inductive Owner where
  | block
  | function (form : FunctionForm) (declaration : FunctionDecl)

def Owner.parameters : Owner → List Token
  | .block => []
  | .function _ declaration => declaration.parameters

/-- A construct around a place in a program, as far as it has a scope. -/
inductive Enclosure where
  /-- A block or a function, with the statements of its body that start before the place.  The last
  of them is the one that the place is in. -/
  | body (owner : Owner) (begun : List Stmt)
  /-- The methods of a class with this superclass clause, where `this` is bound. -/
  | methods (clause : Option Expr)
  /-- The methods of a class that has a superclass, where `super` is bound. -/
  | inherited

namespace Enclosure

def names : Enclosure → List String
  | .body owner begun => (owner.parameters ++ Stmt.introducedAll begun).map Token.lexeme
  | .methods _ => ["this"]
  | .inherited => ["super"]

def function? : Enclosure → Option (FunctionForm × FunctionDecl)
  | .body (.function form declaration) _ => some (form, declaration)
  | _ => none

/-- The superclass clause of the class whose body this is, which may have none. -/
def class? : Enclosure → Option (Option Expr)
  | .methods clause => some clause
  | _ => none

end Enclosure

/-- The number of constructs strictly inside the innermost one that binds a name. -/
def lexicalDistance? (around : List Enclosure) (name : String) : Option Nat :=
  around.findIdx? fun e => name ∈ e.names

def enclosingFunction? (around : List Enclosure) : Option (FunctionForm × FunctionDecl) :=
  around.findSome? Enclosure.function?

def enclosingClass? (around : List Enclosure) : Option (Option Expr) :=
  around.findSome? Enclosure.class?

/-- A node of a program and the constructs around it, the innermost first. -/
structure Occurrence where
  around : List Enclosure
  node : Node

def Expr.occurrences (around : List Enclosure) (e : Expr) : List Occurrence :=
  e.nodes.map fun n => ⟨around, n⟩

mutual

def Stmt.occurrences (around : List Enclosure) : Stmt → List Occurrence
  | .expression value => value.occurrences around ++ [⟨around, .stmt (.expression value)⟩]
  | .print value => value.occurrences around ++ [⟨around, .stmt (.print value)⟩]
  | .var name none => [⟨around, .stmt (.var name none)⟩]
  | .var name (some value) =>
    value.occurrences around ++ [⟨around, .stmt (.var name (some value))⟩]
  | .block body => Stmt.occurrencesAll .block around [] body ++ [⟨around, .stmt (.block body)⟩]
  | .branch condition consequence none =>
    condition.occurrences around ++ consequence.occurrences around ++
      [⟨around, .stmt (.branch condition consequence none)⟩]
  | .branch condition consequence (some alternative) =>
    condition.occurrences around ++ consequence.occurrences around ++
      alternative.occurrences around ++
      [⟨around, .stmt (.branch condition consequence (some alternative))⟩]
  | .while condition body =>
    condition.occurrences around ++ body.occurrences around ++
      [⟨around, .stmt (.while condition body)⟩]
  | .function declaration =>
    declaration.occurrences .function around ++ [⟨around, .stmt (.function declaration)⟩]
  | .return keyword none => [⟨around, .stmt (.return keyword none)⟩]
  | .return keyword (some value) =>
    value.occurrences around ++ [⟨around, .stmt (.return keyword (some value))⟩]
  | .class name none methods =>
    Stmt.occurrencesOfMethods (.methods none :: around) methods ++
      [⟨around, .stmt (.class name none methods)⟩]
  | .class name (some superclass) methods =>
    superclass.occurrences around ++
      Stmt.occurrencesOfMethods (.methods (some superclass) :: .inherited :: around) methods ++
      [⟨around, .stmt (.class name (some superclass) methods)⟩]
termination_by structural s => s

/-- The nodes of the statements of a body, where the statements `begun` come before. -/
def Stmt.occurrencesAll (owner : Owner) (around : List Enclosure) (begun : List Stmt) :
    List Stmt → List Occurrence
  | [] => []
  | s :: ss =>
    s.occurrences (.body owner (begun ++ [s]) :: around) ++
      Stmt.occurrencesAll owner around (begun ++ [s]) ss
termination_by structural ss => ss

def Stmt.occurrencesOfMethods (around : List Enclosure) : List FunctionDecl → List Occurrence
  | [] => []
  | d :: ds => d.occurrences .method around ++ Stmt.occurrencesOfMethods around ds
termination_by structural ds => ds

def FunctionDecl.occurrences (form : FunctionForm) (around : List Enclosure) :
    FunctionDecl → List Occurrence
  | ⟨name, parameters, body⟩ =>
    Stmt.occurrencesAll (.function form ⟨name, parameters, body⟩) around [] body
termination_by structural d => d

end

/-- The nodes of a program.  Around its statements there is no construct. -/
def occurrences (statements : List Stmt) : List Occurrence :=
  statements.flatMap (Stmt.occurrences [])

/-! ### Every node occurs once -/

@[simp] theorem Expr.map_node_occurrences (around : List Enclosure) (e : Expr) :
    (e.occurrences around).map Occurrence.node = e.nodes := by
  simp [Expr.occurrences, Function.comp_def]

mutual

@[simp] theorem Stmt.map_node_occurrences : ∀ (around : List Enclosure) (s : Stmt),
    (s.occurrences around).map Occurrence.node = s.nodes
  | _, .expression _ | _, .print _ | _, .var _ none | _, .var _ (some _)
  | _, .return _ none | _, .return _ (some _) => by simp [Stmt.occurrences, Stmt.nodes]
  | _, .block body => by
      simp [Stmt.occurrences, Stmt.nodes, Stmt.map_node_occurrencesAll _ _ _ body]
  | _, .branch _ s none | _, .while _ s => by
      simp [Stmt.occurrences, Stmt.nodes, Stmt.map_node_occurrences _ s]
  | _, .branch _ s (some s') => by
      simp [Stmt.occurrences, Stmt.nodes, Stmt.map_node_occurrences _ s,
        Stmt.map_node_occurrences _ s']
  | _, .function d => by
      simp [Stmt.occurrences, Stmt.nodes, FunctionDecl.map_node_occurrences _ _ d]
  | _, .class _ none ds | _, .class _ (some _) ds => by
      simp [Stmt.occurrences, Stmt.nodes, Stmt.map_node_occurrencesOfMethods _ ds]

@[simp] theorem Stmt.map_node_occurrencesAll : ∀ (owner : Owner) (around : List Enclosure)
    (begun ss : List Stmt),
    (Stmt.occurrencesAll owner around begun ss).map Occurrence.node = Stmt.nodesAll ss
  | _, _, _, [] => rfl
  | _, _, _, s :: ss => by
      simp [Stmt.occurrencesAll, Stmt.nodesAll, Stmt.map_node_occurrences _ s,
        Stmt.map_node_occurrencesAll _ _ _ ss]

@[simp] theorem Stmt.map_node_occurrencesOfMethods : ∀ (around : List Enclosure)
    (ds : List FunctionDecl),
    (Stmt.occurrencesOfMethods around ds).map Occurrence.node = Stmt.nodesOfMethods ds
  | _, [] => rfl
  | _, d :: ds => by
      simp [Stmt.occurrencesOfMethods, Stmt.nodesOfMethods, FunctionDecl.map_node_occurrences _ _ d,
        Stmt.map_node_occurrencesOfMethods _ ds]

@[simp] theorem FunctionDecl.map_node_occurrences : ∀ (form : FunctionForm)
    (around : List Enclosure) (d : FunctionDecl),
    (d.occurrences form around).map Occurrence.node = d.nodes
  | _, _, ⟨_, _, body⟩ => Stmt.map_node_occurrencesAll _ _ _ body

end

/-- The nodes that occur in a program are its nodes. -/
theorem map_node_occurrences (ss : List Stmt) :
    (occurrences ss).map Occurrence.node = Stmt.nodesAll ss := by
  rw [occurrences, List.map_flatMap, Stmt.nodesAll_eq_flatMap]
  simp only [Stmt.map_node_occurrences]

end Lox
