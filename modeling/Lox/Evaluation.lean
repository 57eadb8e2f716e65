import Lox.Evaluation.Machine
import Lox.Evaluation.Operator
import Lox.Scope.Analysis

/-!
# Evaluation

How expressions are evaluated and statements executed.

`Expr.step` evaluates an expression and `Stmt.step` executes a statement, given how the
expressions and statements inside them and in the functions they call are evaluated and executed.
`evaluate` and `execute` tie the knot: they take a number that bounds how deep evaluation may nest
and how often a loop may go round, and a run that needs more halts out of fuel.

A statement ends normally or with a `return`, which ends the statements around it up to the
innermost call.
-/

namespace Lox

inductive Flow where
  | normal
  | returned (value : Value)
deriving DecidableEq, Repr

def receiverName : String := "this"

def superName : String := "super"

inductive Callable where
  | native
  | function (f : Function)
  /-- A class, with the method that initializes its instances. -/
  | class (id : ClassId) (initializer : Option Function)

def Callable.arity : Callable → Nat
  | .native => 0
  | .function f => f.declaration.parameters.length
  | .class _ none => 0
  | .class _ (some f) => f.declaration.parameters.length

def Heap.callable? (h : Heap) : Value → Option Callable
  | .native _ => some .native
  | .function id => h.functions[id.index]?.map .function
  | .class id => some (.class id (h.method? id initializerName))
  | _ => none

def Literal.value : Literal → Value
  | .nil => .nil
  | .bool b => .bool b
  | .number x => .number x
  | .string s => .string s

namespace Run

/-- Binds a method to its receiver, which it finds in an environment around its own. -/
def bindMethod (f : Function) (receiver : ObjectId) : Run Function := do
  let environment ← newEnvironment f.closure
  define environment receiverName (.object receiver)
  return { f with closure := environment }

def boundMethod (f : Function) (receiver : ObjectId) : Run Value := do
  return .function (← newFunction (← bindMethod f receiver))

def lookUp (site : Site) (name : Token) : Run Value := do
  match (← get).valueAt? site name.lexeme with
  | some value => return value
  | none => raise .undefinedVariable name

def overwrite (site : Site) (name : Token) (value : Value) : Run Unit := do
  match (← get).holderAt? site name.lexeme with
  | some holder => define holder name.lexeme value
  | none => raise .undefinedVariable name

/-- A property of an object: a field, or else a method bound to it. -/
def property (id : ObjectId) (name : Token) : Run Value := do
  let m ← get
  match m.heap.objects[id.index]? with
  | none => raise .undefinedProperty name
  | some o =>
    match o.fields.get? name.lexeme with
    | some value => return value
    | none =>
      match m.heap.method? o.classId name.lexeme with
      | some f => boundMethod f id
      | none => raise .undefinedProperty name

/-- The method that `super` stands for at a site, bound to the receiver of the current method.  The
receiver is held one environment inside the one that holds the class. -/
def superMethod (site : Site) (keyword method : Token) : Run Value := do
  let m ← get
  match m.distances[site]? with
  | none => raise .undefinedVariable keyword
  | some distance =>
    match m.heap.forest.getAt? m.current distance superName with
    | some (.class above) =>
      let receiver := match distance with
        | 0 => none
        | inner + 1 => m.heap.forest.getAt? m.current inner receiverName
      match receiver with
      | some (.object id) =>
        match m.heap.method? above method.lexeme with
        | some f => boundMethod f id
        | none => raise .undefinedProperty method
      | _ => raise .superOutsideMethod keyword
    | _ => raise .undefinedVariable keyword

/-- Executes statements one after the other, up to the first that returns. -/
def sequence (execute : Stmt → Run Flow) : List Stmt → Run Flow
  | [] => return .normal
  | s :: ss => do
    match ← execute s with
    | .normal => sequence execute ss
    | .returned value => return .returned value

def evaluateAll (evaluate : Expr → Run Value) : List Expr → Run (List Value)
  | [] => return []
  | e :: es => do
    let value ← evaluate e
    return value :: (← evaluateAll evaluate es)

/-- Calls a function with as many arguments as it has parameters.  An initializer yields its
receiver, whatever its body does. -/
def enter (execute : Stmt → Run Flow) (f : Function) (arguments : List Value) : Run Value := do
  let environment ← newEnvironment f.closure
  let parameters := f.declaration.parameters.map Token.lexeme
  modifyForest (·.defineAll environment (parameters.zip arguments))
  let flow ← within environment (sequence execute f.declaration.body)
  if f.isInitializer then
    return ((← get).heap.forest.getAt? f.closure 0 receiverName).getD .nil
  match flow with
  | .normal => return .nil
  | .returned value => return value

/-- Calls with as many arguments as there are parameters.  A class makes an object and initializes
it. -/
def invoke (execute : Stmt → Run Flow) (callee : Callable) (arguments : List Value) :
    Run Value := do
  match callee with
  | .native => return .number (← readClock)
  | .function f => enter execute f arguments
  | .class id none => return .object (← newObject id)
  | .class id (some initializer) => do
    let receiver ← newObject id
    let _ ← enter execute (← bindMethod initializer receiver) arguments
    return .object receiver

def callValue (execute : Stmt → Run Flow) (callee : Value) (paren : Token)
    (arguments : List Value) : Run Value := do
  match (← get).heap.callable? callee with
  | none => raise .notCallable paren
  | some c =>
    if arguments.length = c.arity then invoke execute c arguments
    else raise (.wrongArity c.arity arguments.length) paren

def superclass (evaluate : Expr → Run Value) (name : Token) (clause : Expr) : Run ClassId := do
  match ← evaluate clause with
  | .class id => return id
  | _ =>
    match clause with
    | .variable _ superclassName => raise .superclassNotClass superclassName
    | _ => raise .superclassNotClass name

/-- The environment that the methods of a class are closed over.  It holds the superclass, if
there is one. -/
def methodEnvironment (superclass : Option ClassId) : Run EnvironmentId := do
  let current := (← get).current
  match superclass with
  | none => return current
  | some id => do
    let environment ← newEnvironment current
    define environment superName (.class id)
    return environment

/-- The methods of a class; of two with the same name the later one counts. -/
def methodTable (closure : EnvironmentId) (methods : List FunctionDecl) : Table Function :=
  methods.foldl (fun table d =>
    table.set d.name.lexeme ⟨d, closure, d.name.lexeme == initializerName⟩) []

/-- Declares a class.  Its name is known in its methods, and names the class once it is made. -/
def declareClass (name : Token) (superclass : Option ClassId) (methods : List FunctionDecl) :
    Run Unit := do
  defineHere name.lexeme .nil
  let closure ← methodEnvironment superclass
  let id ← newClass ⟨name.lexeme, superclass, methodTable closure methods⟩
  let m ← get
  match m.heap.forest.holder? m.current name.lexeme with
  | some holder => define holder name.lexeme (.class id)
  | none => raise .undefinedVariable name

end Run

open Run

/-- Evaluates an expression, given how what is inside it is evaluated. -/
@[inline] def Expr.step (evaluate : Expr → Run Value) (execute : Stmt → Run Flow) :
    Expr → Run Value
  | .literal value => return value.value
  | .grouping inner => evaluate inner
  | .unary operator right => do ofExcept (Value.unary operator (← evaluate right))
  | .binary left operator right => do
    let a ← evaluate left
    let b ← evaluate right
    ofExcept (Value.binary operator a b)
  | .logical left operator right => do
    let a ← evaluate left
    if Value.decides operator a then return a else evaluate right
  | .variable site name => lookUp site name
  | .assign site name value => do
    let v ← evaluate value
    overwrite site name v
    return v
  | .call callee paren arguments => do
    let c ← evaluate callee
    let vs ← evaluateAll evaluate arguments
    callValue execute c paren vs
  | .get object name => do
    match ← evaluate object with
    | .object id => property id name
    | _ => raise .propertyOfNonObject name
  | .set object name value => do
    match ← evaluate object with
    | .object id => do
      let v ← evaluate value
      setField id name.lexeme v
      return v
    | _ => raise .fieldOfNonObject name
  | .this site keyword => lookUp site keyword
  | .super site keyword method => superMethod site keyword method

/-- Executes a statement, given how what is inside it is evaluated and executed.  After a round of
a loop the loop itself is executed again. -/
@[inline] def Stmt.step (evaluate : Expr → Run Value) (execute : Stmt → Run Flow) :
    Stmt → Run Flow
  | .expression value => do
    let _ ← evaluate value
    return .normal
  | .print value => do
    let v ← evaluate value
    writeAll ((← get).heap.pieces v ++ ["\n"])
    return .normal
  | .var name none => do
    defineHere name.lexeme .nil
    return .normal
  | .var name (some value) => do
    defineHere name.lexeme (← evaluate value)
    return .normal
  | .block body => do
    let environment ← newEnvironment (← get).current
    within environment (sequence execute body)
  | .branch condition consequence alternative => do
    if (← evaluate condition).truthy then execute consequence
    else match alternative with
      | some s => execute s
      | none => return .normal
  | .while condition body => do
    if (← evaluate condition).truthy then
      match ← execute body with
      | .normal => execute (.while condition body)
      | .returned value => return .returned value
    else return .normal
  | .function declaration => do
    let id ← newFunction ⟨declaration, (← get).current, false⟩
    defineHere declaration.name.lexeme (.function id)
    return .normal
  | .return _ none => return .returned .nil
  | .return _ (some value) => do return .returned (← evaluate value)
  | .class name none methods => do
    declareClass name none methods
    return .normal
  | .class name (some clause) methods => do
    let above ← superclass evaluate name clause
    declareClass name (some above) methods
    return .normal

mutual

def evaluate (fuel : Nat) (e : Expr) : Run Value := fun m =>
  match fuel with
  | 0 => .error .outOfFuel m
  | fuel + 1 => e.step (evaluate fuel) (execute fuel) m
termination_by structural fuel

def execute (fuel : Nat) (s : Stmt) : Run Flow := fun m =>
  match fuel with
  | 0 => .error .outOfFuel m
  | fuel + 1 => s.step (evaluate fuel) (execute fuel) m
termination_by structural fuel

end

/-- Executes the statements of a program and flushes the output. -/
def executeAll (fuel : Nat) : List Stmt → Run Unit
  | [] => flush
  | s :: ss => do
    let _ ← execute fuel s
    executeAll fuel ss

end Lox
