import Lox.Program

/-!
# Nodes of a program

A `Node` is an expression or a statement as a part of a program.  `Expr.nodes` and `Stmt.nodes` list
the nodes of a phrase, what is inside before what it is inside of, in the order in which the static
analysis finds something out about them.  The `references` of a phrase are the expressions in it
that refer to a name, each with its site, and its `sites` are these numbers alone.

`Node.WellFormed` is what the grammar promises of a single node beyond its type: what is branched to
or repeated is no declaration, a superclass is given by its name, and names are identifiers.
-/

namespace Lox

/-- What is evaluated or executed. -/
inductive Node where
  | expr (e : Expr)
  | stmt (s : Stmt)

def FunctionDecl.names (d : FunctionDecl) : List Token := d.name :: d.parameters

def Expr.isName : Expr → Bool
  | .variable _ _ => true
  | _ => false

/-- Can the statement stand where a declaration cannot? -/
def Stmt.isPlain : Stmt → Bool
  | .var _ _ => false
  | .function _ => false
  | .class _ _ _ => false
  | _ => true

namespace Node

/-- The site of a node that refers to a name, and the name. -/
def reference? : Node → Option (Site × Token)
  | .expr (.variable site name) => some (site, name)
  | .expr (.assign site name _) => some (site, name)
  | .expr (.this site keyword) => some (site, keyword)
  | .expr (.super site keyword _) => some (site, keyword)
  | _ => none

def tokens : Node → List Token
  | .expr (.unary operator _) => [operator]
  | .expr (.binary _ operator _) => [operator]
  | .expr (.logical _ operator _) => [operator]
  | .expr (.variable _ name) => [name]
  | .expr (.assign _ name _) => [name]
  | .expr (.call _ paren _) => [paren]
  | .expr (.get _ name) => [name]
  | .expr (.set _ name _) => [name]
  | .expr (.this _ keyword) => [keyword]
  | .expr (.super _ keyword method) => [keyword, method]
  | .stmt (.var name _) => [name]
  | .stmt (.function declaration) => declaration.names
  | .stmt (.return keyword _) => [keyword]
  | .stmt (.class name _ methods) => name :: methods.flatMap FunctionDecl.names
  | _ => []

/-- What the grammar promises of a node. -/
def WellFormed : Node → Prop
  | .expr (.variable _ name) => name.kind = .identifier
  | .expr (.assign _ name _) => name.kind = .identifier
  | .expr (.this _ keyword) => keyword.kind = .keyword .this
  | .expr (.super _ keyword _) => keyword.kind = .keyword .super
  | .stmt (.var name _) => name.kind = .identifier
  | .stmt (.branch _ consequence none) => consequence.isPlain
  | .stmt (.branch _ consequence (some alternative)) =>
    consequence.isPlain ∧ alternative.isPlain
  | .stmt (.while _ body) => body.isPlain
  | .stmt (.function declaration) => ∀ name ∈ declaration.names, name.kind = .identifier
  | .stmt (.class name superclass methods) =>
    name.kind = .identifier ∧ (∀ clause ∈ superclass, clause.isName) ∧
      ∀ d ∈ methods, ∀ name ∈ d.names, name.kind = .identifier
  | _ => True

end Node

mutual

def Expr.nodes : Expr → List Node
  | .literal value => [.expr (.literal value)]
  | .grouping inner => inner.nodes ++ [.expr (.grouping inner)]
  | .unary operator right => right.nodes ++ [.expr (.unary operator right)]
  | .binary left operator right =>
    left.nodes ++ right.nodes ++ [.expr (.binary left operator right)]
  | .logical left operator right =>
    left.nodes ++ right.nodes ++ [.expr (.logical left operator right)]
  | .variable site name => [.expr (.variable site name)]
  | .assign site name value => value.nodes ++ [.expr (.assign site name value)]
  | .call callee paren arguments =>
    callee.nodes ++ Expr.nodesAll arguments ++ [.expr (.call callee paren arguments)]
  | .get object name => object.nodes ++ [.expr (.get object name)]
  | .set object name value => value.nodes ++ object.nodes ++ [.expr (.set object name value)]
  | .this site keyword => [.expr (.this site keyword)]
  | .super site keyword method => [.expr (.super site keyword method)]
termination_by structural e => e

def Expr.nodesAll : List Expr → List Node
  | [] => []
  | e :: es => e.nodes ++ Expr.nodesAll es
termination_by structural es => es

end

mutual

def Stmt.nodes : Stmt → List Node
  | .expression value => value.nodes ++ [.stmt (.expression value)]
  | .print value => value.nodes ++ [.stmt (.print value)]
  | .var name none => [.stmt (.var name none)]
  | .var name (some value) => value.nodes ++ [.stmt (.var name (some value))]
  | .block body => Stmt.nodesAll body ++ [.stmt (.block body)]
  | .branch condition consequence none =>
    condition.nodes ++ consequence.nodes ++ [.stmt (.branch condition consequence none)]
  | .branch condition consequence (some alternative) =>
    condition.nodes ++ consequence.nodes ++ alternative.nodes ++
      [.stmt (.branch condition consequence (some alternative))]
  | .while condition body => condition.nodes ++ body.nodes ++ [.stmt (.while condition body)]
  | .function declaration => declaration.nodes ++ [.stmt (.function declaration)]
  | .return keyword none => [.stmt (.return keyword none)]
  | .return keyword (some value) => value.nodes ++ [.stmt (.return keyword (some value))]
  | .class name none methods =>
    Stmt.nodesOfMethods methods ++ [.stmt (.class name none methods)]
  | .class name (some superclass) methods =>
    superclass.nodes ++ Stmt.nodesOfMethods methods ++
      [.stmt (.class name (some superclass) methods)]
termination_by structural s => s

def Stmt.nodesAll : List Stmt → List Node
  | [] => []
  | s :: ss => s.nodes ++ Stmt.nodesAll ss
termination_by structural ss => ss

def Stmt.nodesOfMethods : List FunctionDecl → List Node
  | [] => []
  | d :: ds => d.nodes ++ Stmt.nodesOfMethods ds
termination_by structural ds => ds

/-- The nodes of the body of a function. -/
def FunctionDecl.nodes : FunctionDecl → List Node
  | ⟨_, _, body⟩ => Stmt.nodesAll body
termination_by structural d => d

end

theorem Expr.nodesAll_eq_flatMap (es : List Expr) :
    Expr.nodesAll es = es.flatMap Expr.nodes := by
  induction es with
  | nil => rfl
  | cons e es ih => rw [Expr.nodesAll, ih, List.flatMap_cons]

theorem Stmt.nodesAll_eq_flatMap (ss : List Stmt) :
    Stmt.nodesAll ss = ss.flatMap Stmt.nodes := by
  induction ss with
  | nil => rfl
  | cons s ss ih => rw [Stmt.nodesAll, ih, List.flatMap_cons]

theorem Stmt.nodesOfMethods_eq_flatMap (ds : List FunctionDecl) :
    Stmt.nodesOfMethods ds = ds.flatMap FunctionDecl.nodes := by
  induction ds with
  | nil => rfl
  | cons d ds ih => rw [Stmt.nodesOfMethods, ih, List.flatMap_cons]

theorem FunctionDecl.nodes_eq (d : FunctionDecl) : d.nodes = Stmt.nodesAll d.body := by
  cases d
  rfl

def sitesOf (nodes : List Node) : List Site :=
  nodes.filterMap fun n => n.reference?.map Prod.fst

@[simp] theorem sitesOf_nil : sitesOf [] = [] := rfl

@[simp] theorem sitesOf_append (ns ns' : List Node) :
    sitesOf (ns ++ ns') = sitesOf ns ++ sitesOf ns' := List.filterMap_append

theorem mem_sitesOf {nodes : List Node} {site : Site} :
    site ∈ sitesOf nodes ↔ ∃ n ∈ nodes, ∃ name, n.reference? = some (site, name) := by
  simp [sitesOf]

end Lox
