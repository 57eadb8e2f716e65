import Lox.Proofs.Evaluation.Receiver

/-!
# Calls of classes and initializers

A call of a class yields the object that it makes, and a call of an initializer the object that it
is bound to, whatever is executed in between (`Account.called`).  A function is flagged as an
initializer exactly if it is one that was bound to an object, so that the object is found when it is
yielded.

How a call enters functions is made explicit for this: `callWith` is given what happens when a
function is entered.
-/

namespace Lox

namespace Heap

/-- A method that a class has is there as long as classes stay as they are. -/
theorem method?_of_kept {h h' : Heap}
    (kept : ∀ (i : Nat) c, h.classes[i]? = some c → h'.classes[i]? = some c) {id : ClassId}
    {name : String} {f : Function} (found : h.method? id name = some f) :
    h'.method? id name = some f := by
  rw [method?] at found ⊢
  generalize id.index + 1 = bound at found ⊢
  induction bound generalizing id with
  | zero => cases found
  | succ bound ih =>
      rw [methodWithin?] at found ⊢
      obtain ⟨c, hc, found⟩ := Option.bind_eq_some_iff.1 found
      rw [kept _ c hc, Option.bind_some]
      cases own : c.methods.get? name with
      | some g =>
          rw [own] at found
          exact found
      | none =>
          rw [own] at found
          obtain ⟨above, superclass, found⟩ := Option.bind_eq_some_iff.1 found
          rw [superclass]
          exact ih found

end Heap

namespace Run

/-- Calls with as many arguments as there are parameters, given how functions are entered. -/
def invokeWith (enter : Function → List Value → Run Value) (callee : Callable)
    (arguments : List Value) : Run Value := do
  match callee with
  | .native => return .number (← readClock)
  | .function f => enter f arguments
  | .class id none => return .object (← newObject id)
  | .class id (some initializer) => do
    let receiver ← newObject id
    let _ ← enter (← bindMethod initializer receiver) arguments
    return .object receiver

/-- Calls a value, given how functions are entered. -/
def callWith (enter : Function → List Value → Run Value) (callee : Value) (paren : Token)
    (arguments : List Value) : Run Value := do
  match (← get).heap.callable? callee with
  | none => raise .notCallable paren
  | some c =>
    if arguments.length = c.arity then invokeWith enter c arguments
    else raise (.wrongArity c.arity arguments.length) paren

theorem callWith_enter (execute : Stmt → Run Flow) :
    callWith (enter execute) = callValue execute := rfl

/-- Enters a function if `P` holds of it, of the arguments and of the machine, and does `otherwise`
if not. -/
noncomputable def enterIf (P : Function → List Value → Machine → Prop)
    (otherwise : Function → List Value → Run Value) (execute : Stmt → Run Flow) (f : Function)
    (arguments : List Value) : Run Value := fun m =>
  open Classical in if P f arguments m then enter execute f arguments m else otherwise f arguments m

end Run

/-- The function is the initializer of a class, bound to an object of that class or of one below. -/
structure Function.Initializes (f : Function) (h : Heap) (r : Receiver) : Prop where
  bound : r.Bound h f.closure
  method : f = { r.method with closure := f.closure }
  named : ∃ c, h.classes[r.holder.index]? = some c ∧
    c.methods.get? initializerName = some r.method

/-- A function as a call of a value enters it. -/
structure Entered (fuel : Nat) (callee : Value) (f : Function) (arguments : List Value)
    (m : Machine) : Prop where
  paired : arguments.length = f.declaration.parameters.length
  initializer : f.isInitializer = true ↔ ∃ r, f.Initializes m.heap r
  yields : ∀ r, f.Initializes m.heap r → ∀ v m', Run.enter (execute fuel) f arguments m = .ok v m' →
    v = .object r.object
  /-- What a class enters is the initializer that is found when the object is there. -/
  found : ∀ id, callee = .class id →
    ∃ g, m.heap.method? id initializerName = some g ∧ f = { g with closure := f.closure }

structure Called (fuel : Nat) (callee : Value) (paren : Token) (arguments : List Value)
    (m : Machine) : Prop where
  /-- Every function that is entered is so as `Entered` says. -/
  entered : ∀ otherwise,
    Run.callWith (Run.enterIf (Entered fuel callee) otherwise (execute fuel)) callee paren arguments
      m = Run.callValue (execute fuel) callee paren arguments m
  /-- A class yields an object of it that was not there before. -/
  object : ∀ id, callee = .class id → ∀ v m',
    Run.callValue (execute fuel) callee paren arguments m = .ok v m' →
      ∃ receiver o, v = .object receiver ∧ m.heap.objects[receiver.index]? = none ∧
        m'.heap.objects[receiver.index]? = some o ∧ o.classId = id
  /-- An initializer yields the object that it is bound to. -/
  receiver : ∀ (id : FunctionId) f r, callee = .function id →
    m.heap.functions[id.index]? = some f → f.Initializes m.heap r → ∀ v m',
      Run.callValue (execute fuel) callee paren arguments m = .ok v m' → v = .object r.object

namespace Account

open Run Discipline

variable {s t : Account} {f : Function} {r : Receiver}

/-- The functions that are flagged as initializers are those that were bound. -/
theorem isInitializer_iff (calls : discipline.Calls s f) :
    f.isInitializer = true ↔ ∃ r, f.Initializes s.machine.heap r := by
  constructor
  · intro flagged
    obtain ⟨r, known, method⟩ := calls.2 flagged
    have bound := s.books.bound _ r known
    obtain ⟨c, name, declared, own⟩ := bound.method
    have named := (s.books.methods _ c declared).named name r.method own
    rw [method] at flagged
    obtain rfl : name = initializerName := by simpa using named.symm.trans flagged
    exact ⟨r, bound, method, c, declared, own⟩
  · rintro ⟨r, initializes⟩
    obtain ⟨c, declared, own⟩ := initializes.named
    rw [initializes.method]
    simpa using (s.books.methods _ c declared).named _ r.method own

/-- An initializer yields its receiver: no statement of the program can overwrite it. -/
theorem enter_initializer (calls : discipline.Calls s f)
    (initializes : f.Initializes s.machine.heap r) (fuel : Nat) (arguments : List Value) :
    discipline.Keeps s (Run.enter (execute fuel) f arguments) fun _ v => v = .object r.object := by
  have flagged := (isInitializer_iff calls).2 ⟨r, initializes⟩
  apply (call calls arguments).bind
  intro t id later parameters
  apply parameters.bind
  intro u _ later' admitted
  have body : discipline.Keeps u (within id (sequence (execute fuel) f.declaration.body))
      fun _ _ => True :=
    .of_beside fun alarm => (respected.sequence (respected.besides alarm fuel).2 admitted).within
  apply body.bind
  intro w flow later'' _
  rw [flagged]
  apply Keeps.get
  apply Keeps.pure
  have follows := (discipline.trans later (discipline.trans later' later'')).1
  change (w.machine.heap.forest.own? f.closure receiverName).getD .nil = _
  rw [follows.receiver _ calls.1.covers.made, initializes.bound.held]
  rfl

theorem entered {callee : Value} {arguments : List Value} (calls : discipline.Calls s f)
    (paired : arguments.length = f.declaration.parameters.length) (fuel : Nat)
    (found : ∀ id, callee = .class id → ∃ g, s.machine.heap.method? id initializerName = some g ∧
      f = { g with closure := f.closure }) : Entered fuel callee f arguments s.machine where
  paired := paired
  initializer := isInitializer_iff calls
  yields r initializes v m' ran := by
    obtain ⟨_, -, -, yields⟩ :=
      (enter_initializer calls initializes fuel arguments).exists_of_ok ran
    exact yields
  found := found

/-- A function is entered, and yields its receiver if it is an initializer. -/
theorem enterIf {P : Function → List Value → Machine → Prop} {arguments : List Value} {fuel : Nat}
    {alarm : Halt} (calls : discipline.Calls s f) (holds : P f arguments s.machine)
    (otherwise : Function → List Value → Run Value) :
    discipline.Beside alarm s
      (Run.enterIf P otherwise (execute fuel) f arguments)
      (Run.enter (execute fuel) f arguments) fun _ v =>
        ∀ r, f.Initializes s.machine.heap r → v = .object r.object := by
  have keeps : discipline.Keeps s (Run.enter (execute fuel) f arguments) fun _ v =>
      ∀ r, f.Initializes s.machine.heap r → v = .object r.object := by
    by_cases initializer : ∃ r, f.Initializes s.machine.heap r
    · obtain ⟨r, initializes⟩ := initializer
      apply (enter_initializer calls initializes fuel arguments).imp
      rintro t v - rfl r' initializes'
      have same := initializes.bound.held.symm.trans initializes'.bound.held
      exact Option.some.inj same
    · apply Keeps.imp (P := fun _ _ => True)
      · exact .of_beside fun alarm =>
          respected.enter (respected.besides alarm fuel).2 calls arguments
      · intro t v _ _ r initializes
        exact absurd ⟨r, initializes⟩ initializer
  exact Or.inr ⟨if_pos holds, keeps⟩

/-- A class with an initializer yields the object that it makes. -/
theorem construct {P : Function → List Value → Machine → Prop} {arguments : List Value}
    {id : ClassId} {f : Function} {fuel : Nat} {alarm : Halt}
    (found : s.machine.heap.method? id initializerName = some f)
    (paired : arguments.length = f.declaration.parameters.length)
    (holds : ∀ {t g}, discipline.Calls t g →
      arguments.length = g.declaration.parameters.length →
      t.machine.heap.method? id initializerName = some f → g = { f with closure := g.closure } →
        P g arguments t.machine)
    (otherwise : Function → List Value → Run Value) :
    discipline.Beside alarm s
      (invokeWith (Run.enterIf P otherwise (execute fuel)) (.class id (some f)) arguments)
      (invokeWith (Run.enter (execute fuel)) (.class id (some f)) arguments) fun t v =>
        ∃ receiver, v = .object receiver ∧ s.Makes t id receiver := by
  apply (newReceiver found).beside.bind
  intro t receiver later made
  obtain ⟨makes, bound⟩ := made
  apply bound.beside.bind
  intro u g later' binds
  obtain ⟨holder, binds⟩ := binds
  have kept : u.machine.heap.method? id initializerName = some f :=
    Heap.method?_of_kept (discipline.trans later later').1.classes found
  have paired' : arguments.length = g.declaration.parameters.length := by
    rw [binds.method]
    exact paired
  apply (enterIf binds.calls (holds binds.calls paired' kept binds.method) otherwise).bind
  intro w _ later'' _
  obtain ⟨o, object, rfl⟩ := makes.made
  obtain ⟨o', object', same⟩ := (discipline.trans later' later'').1.objects _ o object
  exact .pure ⟨receiver, rfl, makes.new, o', object', same⟩

/-- What holds of all functions that may be entered with as many arguments as they have parameters
holds of those that a call of a value enters.  What classes and initializers yield is their
object. -/
theorem callWith {P : Function → List Value → Machine → Prop} (fuel : Nat) (callee : Value)
    (paren : Token) (arguments : List Value)
    (holds : ∀ {t g}, discipline.Calls t g →
      arguments.length = g.declaration.parameters.length →
      (∀ id, callee = .class id → ∃ f, t.machine.heap.method? id initializerName = some f ∧
        g = { f with closure := g.closure }) → P g arguments t.machine)
    (otherwise : Function → List Value → Run Value) (alarm : Halt) :
    discipline.Beside alarm s
      (Run.callWith (Run.enterIf P otherwise (execute fuel)) callee paren arguments)
      (callValue (execute fuel) callee paren arguments) fun t v =>
        (∀ id, callee = .class id → ∃ receiver, v = .object receiver ∧ s.Makes t id receiver) ∧
        ∀ (id : FunctionId) f r, callee = .function id →
          s.machine.heap.functions[id.index]? = some f → f.Initializes s.machine.heap r →
            v = .object r.object := by
  apply Beside.get
  cases hc : (discipline.machine s).heap.callable? callee with
  | none => exact .raise .notCallable paren
  | some c =>
      by_cases arity : arguments.length = c.arity
      · simp only [arity, if_true]
        cases callee with
        | native id =>
            cases hc
            apply Beside.bind (P := fun _ _ => True)
            · exact (respected.clock s).beside
            · exact fun t x _ _ => .pure ⟨fun _ h => (by cases h), fun _ _ _ h => by cases h⟩
        | function id =>
            obtain ⟨f, hf, rfl⟩ := Option.map_eq_some_iff.1 hc
            have calls : discipline.Calls s f := respected.callee hf
            apply (enterIf calls (holds calls arity fun _ h => by cases h) otherwise).imp
            intro t v _ yields
            refine ⟨fun _ h => (by cases h), fun id' f' r h found initializes => ?_⟩
            cases h
            obtain rfl := Option.some.inj (hf.symm.trans found)
            exact yields r initializes
        | «class» id =>
            obtain rfl := Option.some.inj hc
            cases hm : (discipline.machine s).heap.method? id initializerName with
            | none =>
                apply (newObject id).beside.bind
                intro t receiver _ makes
                refine .pure ⟨fun id' h => ?_, fun _ _ _ h => by cases h⟩
                cases h
                exact ⟨receiver, rfl, makes⟩
            | some f =>
                rw [hm] at arity
                apply (construct hm arity (fun calls paired found method =>
                  holds calls paired fun id' h => by
                    cases h
                    exact ⟨f, found, method⟩) otherwise).imp
                intro t v _ made
                refine ⟨fun id' h => ?_, fun _ _ _ h => by cases h⟩
                cases h
                exact made
        | _ => cases hc
      · simp only [arity, if_false]
        exact .raise _ paren

/-- Calls of values yield what they should wherever the receivers are known. -/
theorem called (s : Account) (fuel : Nat) (callee : Value) (paren : Token)
    (arguments : List Value) : Called fuel callee paren arguments s.machine := by
  have same (otherwise : Function → List Value → Run Value) :=
    Beside.same (callWith (P := Entered fuel callee) (s := s) fuel callee paren arguments
      (fun calls paired found => entered calls paired fuel found) otherwise)
  have keeps := (same fun _ _ => throw .outOfFuel).2
  refine ⟨fun otherwise => (same otherwise).1, ?_, ?_⟩
  · intro id hc v m' ran
    obtain ⟨t, rfl, -, object, -⟩ := keeps.exists_of_ok ran
    obtain ⟨receiver, rfl, makes⟩ := object id hc
    obtain ⟨o, made, same⟩ := makes.made
    exact ⟨receiver, o, rfl, makes.new, made, same⟩
  · intro id f r hc found initializes v m' ran
    obtain ⟨t, rfl, -, -, yields⟩ := keeps.exists_of_ok ran
    exact yields id f r hc found initializes

/-- The receivers are still known when callee and arguments have been evaluated. -/
theorem exists_of_evaluated {callee : Expr} {paren : Token} {arguments : List Expr}
    (admits : s.Admits (.expr (.call callee paren arguments))) {fuel : Nat} {c : Value}
    {m₁ m₂ : Machine} {given : List Value} (first : evaluate fuel callee s.machine = .ok c m₁)
    (rest : evaluateAll (evaluate fuel) arguments m₁ = .ok given m₂) :
    ∃ u : Account, u.machine = m₂ := by
  have evaluates (alarm : Halt) :
      discipline.Yields (fun _ _ => True) alarm (evaluate fuel) (evaluate fuel) :=
    (respected.tracked.besides alarm fuel).1
  have part (e : Expr) (h : .expr e ∈ (Node.expr (.call callee paren arguments)).parts) :
      discipline.Admits s (.expr e) := respected.parts admits _ h
  have head : discipline.Keeps s (evaluate fuel callee) fun _ _ => True :=
    .of_beside fun alarm => evaluates alarm (part callee (by simp [Node.parts]))
  obtain ⟨t, rfl, later, -⟩ := head.exists_of_ok first
  have each (e : Expr) (h : e ∈ arguments) : discipline.Admits t (.expr e) :=
    respected.later later (part e (by simp [Node.parts, h]))
  have tail : discipline.Keeps t (evaluateAll (evaluate fuel) arguments)
      fun _ vs => ∀ v ∈ vs, True :=
    .of_beside fun alarm => respected.tracked.evaluateAll (evaluates alarm) each
  obtain ⟨u, same, -⟩ := tail.exists_of_ok rest
  exact ⟨u, same⟩

end Account

end Lox
