import Std.Data.TreeMap
import Lox.Heap
import Lox.Output
import Lox.Evaluation.Fault

/-!
# The machine

The state of an execution and the small steps that programs are executed by.  A `Machine` has a
heap, the current environment, the distances that the static analysis found for the sites of
names, the sink that is printed to, and a clock.  A `Run` is a step on a machine; it yields a value
or halts, and either way leaves a machine behind.

`within` is the only step that changes the current environment, and it changes it back however the
steps inside it end.
-/

namespace Lox

/-- Why a run halts before its end. -/
inductive Halt where
  | error (e : RuntimeError)
  | output (e : OutputError)
  /-- The bound on the length of the execution was too small. -/
  | outOfFuel
deriving DecidableEq, Repr

structure Machine where
  heap : Heap
  /-- The environment of the names of the whole program. -/
  globals : EnvironmentId
  /-- The environment that statements are executed in. -/
  current : EnvironmentId
  /-- The distances of the names at sites.  A name without one belongs to the whole program. -/
  distances : Std.TreeMap Site Nat
  sink : Sink
  /-- The readings of the clock, in seconds, in the order in which they are taken. -/
  clock : Nat → Float
  /-- How many readings have been taken. -/
  readings : Nat

abbrev Run := EStateM Halt Machine

namespace Machine

def clockName : String := "clock"

/-- A machine that has executed nothing.  Its one name is that of the clock. -/
def initial (sink : Sink) (clock : Nat → Float) : Machine :=
  let globals := Forest.empty.next
  let forest := (Forest.empty.grow none).define globals clockName (.native ⟨0⟩)
  { heap := { Heap.empty with forest, natives := #[clockName] }
    globals, current := globals, distances := ∅, sink, clock, readings := 0 }

def record (m : Machine) (site : Site) (distance : Nat) : Machine :=
  { m with distances := m.distances.insert site distance }

def valueAt? (m : Machine) (site : Site) (name : String) : Option Value :=
  match m.distances[site]? with
  | some distance => m.heap.forest.getAt? m.current distance name
  | none => m.heap.forest.get? m.globals name

def holderAt? (m : Machine) (site : Site) (name : String) : Option EnvironmentId :=
  match m.distances[site]? with
  | some distance => m.heap.forest.holderAt? m.current distance name
  | none => m.heap.forest.holder? m.globals name

end Machine

namespace Run

def raise (fault : RuntimeFault) (culprit : Token) : Run α := throw (.error ⟨fault, culprit⟩)

def ofExcept : Except RuntimeError α → Run α
  | .ok a => pure a
  | .error e => throw (.error e)

@[inline] def modifyForest (f : Forest → Forest) : Run Unit :=
  modify fun m => { m with heap := { m.heap with forest := f m.heap.forest } }

def newEnvironment (enclosing : EnvironmentId) : Run EnvironmentId := do
  let id := (← get).heap.forest.next
  modifyForest (·.grow (some enclosing))
  return id

def define (id : EnvironmentId) (name : String) (value : Value) : Run Unit :=
  modifyForest (·.define id name value)

def defineHere (name : String) (value : Value) : Run Unit := do
  define (← get).current name value

def newFunction (f : Function) : Run FunctionId :=
  modifyGet fun m => (⟨m.heap.functions.size⟩,
    { m with heap := { m.heap with functions := m.heap.functions.push f } })

def newClass (c : Class) : Run ClassId :=
  modifyGet fun m => (⟨m.heap.classes.size⟩,
    { m with heap := { m.heap with classes := m.heap.classes.push c } })

def newObject (classId : ClassId) : Run ObjectId :=
  modifyGet fun m => (⟨m.heap.objects.size⟩,
    { m with heap := { m.heap with objects := m.heap.objects.push ⟨classId, []⟩ } })

def setField (id : ObjectId) (name : String) (value : Value) : Run Unit :=
  modify fun m => { m with heap := { m.heap with
    objects := m.heap.objects.modify id.index fun o =>
      { o with fields := o.fields.set name value } } }

def readClock : Run Float :=
  modifyGet fun m => (m.clock m.readings, { m with readings := m.readings + 1 })

def write (piece : String) : Run Unit := do
  if (← get).sink.accepts piece then modify fun m => { m with sink := m.sink.append piece }
  else throw (.output .closed)

/-- Prints pieces of text, up to the first that is not accepted. -/
def writeAll : List String → Run Unit
  | [] => pure ()
  | piece :: rest => do
    write piece
    writeAll rest

def flush : Run Unit := do
  if !(← get).sink.flushable then throw (.output .flushFailed)

/-- Runs in an environment and goes back to the one before, however the run ends. -/
def within (environment : EnvironmentId) (body : Run α) : Run α := fun m =>
  let before := m.current
  match body { m with current := environment } with
  | .ok a m => .ok a { m with current := before }
  | .error halt m => .error halt { m with current := before }

end Run

end Lox
