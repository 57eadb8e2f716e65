import Lox.Program
import Lox.Scope

/-!
# Binding names

The static analysis of a program.  It walks through the program in the order of the text and finds
out, for every expression that refers to a name, in which scope that name is: the `Binding` of its
site.  On the way it finds the violations of the rules on names and on where `return`, `this` and
`super` may stand.  Neither stops the walk.

A block has a scope, a function has one for its parameters and body together, and a class has one
that holds `this` around its methods, inside one that holds `super` if it has a superclass.
Execution makes an environment in exactly these places.

`Expr.findings` is what there is to find in an expression.  `Stmt.findings` also gives the scopes
after a statement, which differ from those before it in the names that it declares.
-/

namespace Lox

inductive FunctionContext where
  | none
  | function
  | method
  | initializer
deriving DecidableEq, Repr

inductive ClassContext where
  | none
  | base
  | derived
deriving DecidableEq, Repr

structure Context where
  function : FunctionContext
  enclosing : ClassContext
deriving DecidableEq, Repr

def Context.top : Context := ⟨.none, .none⟩

/-- What a name was found to refer to: something at a distance, or something of the whole
program. -/
structure Binding where
  site : Site
  name : String
  distance : Option Nat
deriving DecidableEq, Repr

inductive Finding where
  | binding (b : Binding)
  | error (e : ScopeError)
deriving DecidableEq, Repr

/-- The error that a fault at a token is, if there is one. -/
def findingIf (faulty : Bool) (fault : ScopeFault) (culprit : Token) : List Finding :=
  if faulty then [.error ⟨fault, culprit⟩] else []

def bind (scopes : Scopes) (site : Site) (name : Token) : List Finding :=
  [.binding ⟨site, name.lexeme, scopes.distance? name.lexeme⟩]

mutual

/-- What there is to find in an expression.  When it is the initializer of a variable of the whole
program, `pending` is the name of that variable. -/
def Expr.findings (context : Context) (pending : Option String) (scopes : Scopes) :
    Expr → List Finding
  | .literal _ => []
  | .grouping inner => inner.findings context pending scopes
  | .unary _ right => right.findings context pending scopes
  | .binary left _ right =>
    left.findings context pending scopes ++ right.findings context pending scopes
  | .logical left _ right =>
    left.findings context pending scopes ++ right.findings context pending scopes
  | .variable site name =>
    let unready := scopes.isBegun name.lexeme ||
      (pending == some name.lexeme && (scopes.distance? name.lexeme).isNone)
    findingIf unready .readInInitializer name ++ bind scopes site name
  | .assign site name value => value.findings context pending scopes ++ bind scopes site name
  | .call callee _ arguments =>
    callee.findings context pending scopes ++ findingsAll context pending scopes arguments
  | .get object _ => object.findings context pending scopes
  | .set object _ value =>
    value.findings context pending scopes ++ object.findings context pending scopes
  | .this site keyword =>
    if context.enclosing = .none then [.error ⟨.thisOutsideClass, keyword⟩]
    else bind scopes site keyword
  | .super site keyword _ =>
    findingIf (context.enclosing = .none) .superOutsideClass keyword ++
      findingIf (context.enclosing = .base) .superWithoutSuperclass keyword ++
      bind scopes site keyword
termination_by structural e => e

def Expr.findingsAll (context : Context) (pending : Option String) (scopes : Scopes) :
    List Expr → List Finding
  | [] => []
  | e :: es => e.findings context pending scopes ++ findingsAll context pending scopes es
termination_by structural es => es

end

def declarationFindings (scopes : Scopes) (name : Token) : List Finding :=
  findingIf (scopes.declares name.lexeme) .alreadyDeclared name

def Scopes.introduce (scopes : Scopes) (name : Token) : Scopes :=
  (scopes.declare name.lexeme).define name.lexeme

def Scopes.introduceAll (scopes : Scopes) : List Token → Scopes × List Finding
  | [] => (scopes, [])
  | name :: names =>
    let (after, found) := (scopes.introduce name).introduceAll names
    (after, declarationFindings scopes name ++ found)

def initializerName : String := "init"

def methodContext (name : String) : FunctionContext :=
  if name = initializerName then .initializer else .method

def superclassFindings (name : Token) : Expr → List Finding
  | .variable _ superName =>
    findingIf (superName.lexeme = name.lexeme) .inheritsFromItself superName
  | _ => []

def Scope.holding (word : String) : Scope := [(word, .complete)]

mutual

/-- What there is to find in a statement, and the scopes after it. -/
def Stmt.findings (context : Context) (scopes : Scopes) : Stmt → Scopes × List Finding
  | .expression value => (scopes, value.findings context none scopes)
  | .print value => (scopes, value.findings context none scopes)
  | .var name none => (scopes.introduce name, declarationFindings scopes name)
  | .var name (some value) =>
    let inside := scopes.declare name.lexeme
    let pending := if scopes.isEmpty then some name.lexeme else none
    (inside.define name.lexeme,
      declarationFindings scopes name ++ value.findings context pending inside)
  | .block body => (scopes, Stmt.findingsAll context ([] :: scopes) body)
  | .branch condition consequence none =>
    let (after, found) := consequence.findings context scopes
    (after, condition.findings context none scopes ++ found)
  | .branch condition consequence (some alternative) =>
    let (between, first) := consequence.findings context scopes
    let (after, second) := alternative.findings context between
    (after, condition.findings context none scopes ++ first ++ second)
  | .while condition body =>
    let (after, found) := body.findings context scopes
    (after, condition.findings context none scopes ++ found)
  | .function declaration =>
    let after := scopes.introduce declaration.name
    (after, declarationFindings scopes declaration.name ++
      declaration.findings .function context after)
  | .return keyword none =>
    (scopes, findingIf (context.function = .none) .returnOutsideFunction keyword)
  | .return keyword (some value) =>
    (scopes, findingIf (context.function = .none) .returnOutsideFunction keyword ++
      findingIf (context.function = .initializer) .valueFromInitializer keyword ++
      value.findings context none scopes)
  | .class name none methods =>
    let after := scopes.introduce name
    (after, declarationFindings scopes name ++
      Stmt.findingsOfMethods { context with enclosing := .base }
        (Scope.holding "this" :: after) methods)
  | .class name (some superclass) methods =>
    let after := scopes.introduce name
    let inside := { context with enclosing := .derived }
    (after, declarationFindings scopes name ++ superclassFindings name superclass ++
      superclass.findings inside none after ++
      Stmt.findingsOfMethods inside
        (Scope.holding "this" :: Scope.holding "super" :: after) methods)
termination_by structural s => s

def Stmt.findingsAll (context : Context) (scopes : Scopes) : List Stmt → List Finding
  | [] => []
  | s :: ss =>
    let (after, found) := s.findings context scopes
    found ++ Stmt.findingsAll context after ss
termination_by structural ss => ss

def Stmt.findingsOfMethods (context : Context) (scopes : Scopes) : List FunctionDecl → List Finding
  | [] => []
  | d :: ds =>
    d.findings (methodContext d.name.lexeme) context scopes ++
      Stmt.findingsOfMethods context scopes ds
termination_by structural ds => ds

/-- What there is to find in the parameters and the body of a function, which share a scope. -/
def FunctionDecl.findings (kind : FunctionContext) (context : Context) (scopes : Scopes) :
    FunctionDecl → List Finding
  | ⟨_, parameters, body⟩ =>
    let (inside, found) := Scopes.introduceAll ([] :: scopes) parameters
    found ++ Stmt.findingsAll { context with function := kind } inside body
termination_by structural d => d

end

def analyze (statements : List Stmt) : List Finding := Stmt.findingsAll .top [] statements

def bindingsOf (findings : List Finding) : List Binding :=
  findings.filterMap fun
    | .binding b => some b
    | .error _ => none

def scopeErrorsOf (findings : List Finding) : List ScopeError :=
  findings.filterMap fun
    | .binding _ => none
    | .error e => some e

end Lox
