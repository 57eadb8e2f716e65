import Lox.Program
import Lox.Heap.Environment
import Lox.Text.Quoted

/-!
# The heap

Everything with an identity that an execution has made: environments, functions, classes, objects
and built-in functions, each numbered in the order in which it was made.  Nothing is ever removed.

A class refers to its superclass, which is older than itself.  The search for a method uses this
for its bound, as the search for a name does.
-/

namespace Lox

/-- A function together with the environment that its declaration was executed in. -/
structure Function where
  declaration : FunctionDecl
  closure : EnvironmentId
  /-- Does a call give back the object that the function is bound to? -/
  isInitializer : Bool

structure Class where
  name : String
  superclass : Option ClassId
  methods : Table Function

structure Object where
  classId : ClassId
  fields : Table Value

structure Heap where
  forest : Forest
  functions : Array Function
  classes : Array Class
  objects : Array Object
  /-- The names of the built-in functions. -/
  natives : Array String

namespace Heap

def empty : Heap := ⟨.empty, #[], #[], #[], #[]⟩

/-- The method of a class or of the first class above it that has one, among `bound` classes. -/
def methodWithin? (h : Heap) : (bound : Nat) → ClassId → String → Option Function
  | 0, _, _ => none
  | bound + 1, id, name =>
    h.classes[id.index]?.bind fun c =>
      match c.methods.get? name with
      | some f => some f
      | none => c.superclass.bind fun above => h.methodWithin? bound above name

def method? (h : Heap) (id : ClassId) (name : String) : Option Function :=
  h.methodWithin? (id.index + 1) id name

def className (h : Heap) (id : ClassId) : String := (h.classes[id.index]?.map Class.name).getD ""

def objectClassName (h : Heap) (id : ObjectId) : String :=
  (h.objects[id.index]?.map fun o => h.className o.classId).getD ""

def functionName (h : Heap) (id : FunctionId) : String :=
  (h.functions[id.index]?.map fun f => f.declaration.name.lexeme).getD ""

/-- The text of a value, in the pieces in which it is written. -/
def pieces (h : Heap) : Value → List String
  | .nil => ["nil"]
  | .bool true => ["true"]
  | .bool false => ["false"]
  | .number x => [Number.printed x]
  | .string s => [s]
  | .native id => ["<native fn ", h.natives[id.index]?.getD "", ">"]
  | .function id => ["<fn ", h.functionName id, ">"]
  | .class id => ["<class ", h.className id, ">"]
  | .object id => ["<class instance ", h.objectClassName id, ">"]

def text (h : Heap) (v : Value) : String := String.join (h.pieces v)

/-- The text of a value on one line, with strings in quotes. -/
def shown (h : Heap) : Value → String
  | .string s => Text.quoted s
  | v => h.text v

end Heap

end Lox
