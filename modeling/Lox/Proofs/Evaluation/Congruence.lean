import Lox.Evaluation

/-!
# Relations between executions

A `Congruence` relates families of runs to runs.  It holds of the small steps that have nothing to
do with the output, and it is kept when runs are put together.  So it holds of evaluating an
expression and of executing a statement that does not print as soon as it holds of what is inside
them (`Congruence.expression`, `Congruence.statement`).

The two sides may be taken on machines with different sinks: what a run reads of the machine before
it goes on is anything but the sink.
-/

namespace Lox

namespace Run

/-- The small steps that always yield a value and leave the sink as it is. -/
inductive Small : {α : Type} → Run α → Prop
  | newEnvironment (outer : EnvironmentId) : Small (newEnvironment outer)
  | define (id : EnvironmentId) (name : String) (value : Value) : Small (define id name value)
  | defineAll (id : EnvironmentId) (bindings : List (String × Value)) :
      Small (modifyForest (·.defineAll id bindings))
  | newFunction (f : Function) : Small (newFunction f)
  | newClass (c : Class) : Small (newClass c)
  | newObject (id : ClassId) : Small (newObject id)
  | setField (id : ObjectId) (name : String) (value : Value) : Small (setField id name value)
  | readClock : Small readClock

/-- A relation of families of runs to runs that is kept when runs are put together. -/
structure Congruence (ι : Type) where
  Relates : {α : Type} → (ι → Run α) → Run α → Prop
  pure {α : Type} (a : α) : Relates (fun _ => Pure.pure a) (Pure.pure a)
  halt {α : Type} (halt : Halt) : Relates (fun _ => (throw halt : Run α)) (throw halt)
  small {α : Type} {x : Run α} (h : Small x) : Relates (fun _ => x) x
  bind {α β : Type} {x : ι → Run β} {y : Run β} {f : ι → β → Run α} {g : β → Run α}
    (h : Relates x y) (k : ∀ b, Relates (fun i => f i b) (g b)) :
    Relates (fun i => x i >>= f i) (y >>= g)
  /-- What is read of the machine is not the sink. -/
  get {α : Type} {f : ι → Machine → Run α} {g : Machine → Run α}
    (blind : ∀ i m sink, f i { m with sink } = f i m) (h : ∀ m, Relates (fun i => f i m) (g m)) :
    Relates (fun i => MonadState.get >>= f i) (MonadState.get >>= g)
  within {α : Type} {x : ι → Run α} {y : Run α} (id : EnvironmentId) (h : Relates x y) :
    Relates (fun i => within id (x i)) (within id y)

namespace Congruence

variable {ι α : Type} (C : Congruence ι)

theorem raise (fault : RuntimeFault) (culprit : Token) :
    C.Relates (fun _ => (raise fault culprit : Run α)) (raise fault culprit) :=
  C.halt _

theorem ofExcept (r : Except RuntimeError α) :
    C.Relates (fun _ => ofExcept r) (Run.ofExcept r) := by
  cases r with
  | ok a => exact C.pure a
  | error e => exact C.halt (.error e)

theorem ite {p : Prop} [Decidable p] {x x' : ι → Run α} {y y' : Run α} (h : C.Relates x y)
    (h' : C.Relates x' y') :
    C.Relates (fun i => if p then x i else x' i) (if p then y else y') := by
  split
  · exact h
  · exact h'

/-! ### Names, methods and classes -/

theorem defineHere (name : String) (v : Value) :
    C.Relates (fun _ => defineHere name v) (Run.defineHere name v) :=
  C.get (fun _ _ _ => rfl) fun m => C.small (.define m.current name v)

theorem bindMethod (f : Function) (receiver : ObjectId) :
    C.Relates (fun _ => bindMethod f receiver) (Run.bindMethod f receiver) :=
  C.bind (C.small (.newEnvironment f.closure)) fun _ =>
    C.bind (C.small (.define _ _ _)) fun _ => C.pure _

theorem boundMethod (f : Function) (receiver : ObjectId) :
    C.Relates (fun _ => boundMethod f receiver) (Run.boundMethod f receiver) :=
  C.bind (C.bindMethod f receiver) fun g => C.bind (C.small (.newFunction g)) fun _ => C.pure _

theorem lookUp (site : Site) (name : Token) :
    C.Relates (fun _ => lookUp site name) (Run.lookUp site name) := by
  refine C.get (fun _ _ _ => rfl) fun m => ?_
  cases m.valueAt? site name.lexeme with
  | none => exact C.raise _ name
  | some v => exact C.pure v

theorem overwrite (site : Site) (name : Token) (v : Value) :
    C.Relates (fun _ => overwrite site name v) (Run.overwrite site name v) := by
  refine C.get (fun _ _ _ => rfl) fun m => ?_
  cases m.holderAt? site name.lexeme with
  | none => exact C.raise _ name
  | some holder => exact C.small (.define holder name.lexeme v)

theorem property (id : ObjectId) (name : Token) :
    C.Relates (fun _ => property id name) (Run.property id name) := by
  refine C.get (fun _ _ _ => rfl) fun m => ?_
  split
  · exact C.raise _ name
  · split
    · exact C.pure _
    · split
      · exact C.boundMethod _ id
      · exact C.raise _ name

theorem superMethod (site : Site) (keyword method : Token) :
    C.Relates (fun _ => superMethod site keyword method) (Run.superMethod site keyword method) := by
  refine C.get (fun _ _ _ => rfl) fun m => ?_
  split
  · exact C.raise _ keyword
  · split
    · dsimp only
      split
      · split
        · exact C.boundMethod _ _
        · exact C.raise _ method
      · exact C.raise _ keyword
    · exact C.raise _ keyword

theorem methodEnvironment (above : Option ClassId) :
    C.Relates (fun _ => methodEnvironment above) (Run.methodEnvironment above) := by
  refine C.get (fun _ _ _ => rfl) fun m => ?_
  cases above with
  | none => exact C.pure _
  | some id =>
      exact C.bind (C.small (.newEnvironment _)) fun _ =>
        C.bind (C.small (.define _ _ _)) fun _ => C.pure _

theorem declareClass (name : Token) (above : Option ClassId) (methods : List FunctionDecl) :
    C.Relates (fun _ => declareClass name above methods) (Run.declareClass name above methods) := by
  refine C.bind (C.defineHere _ _) fun _ => C.bind (C.methodEnvironment above) fun closure => ?_
  refine C.bind (C.small (.newClass _)) fun id => C.get (fun _ _ _ => rfl) fun m => ?_
  cases m.heap.forest.holder? m.current name.lexeme with
  | none => exact C.raise _ name
  | some holder => exact C.small (.define holder name.lexeme (.class id))

/-! ### Executions -/

variable {C} {evaluate₁ : ι → Expr → Run Value} {evaluate₂ : Expr → Run Value}
  {execute₁ : ι → Stmt → Run Flow} {execute₂ : Stmt → Run Flow}

theorem evaluateAll (he : ∀ e, C.Relates (fun i => evaluate₁ i e) (evaluate₂ e)) (es : List Expr) :
    C.Relates (fun i => evaluateAll (evaluate₁ i) es) (Run.evaluateAll evaluate₂ es) := by
  induction es with
  | nil => exact C.pure []
  | cons e es ih => exact C.bind (he e) fun _ => C.bind ih fun _ => C.pure _

theorem sequence (hx : ∀ s, C.Relates (fun i => execute₁ i s) (execute₂ s)) (ss : List Stmt) :
    C.Relates (fun i => sequence (execute₁ i) ss) (Run.sequence execute₂ ss) := by
  induction ss with
  | nil => exact C.pure Flow.normal
  | cons s ss ih =>
      refine C.bind (hx s) fun flow => ?_
      cases flow with
      | normal => exact ih
      | returned v => exact C.pure _

theorem enter (hx : ∀ s, C.Relates (fun i => execute₁ i s) (execute₂ s)) (f : Function)
    (arguments : List Value) :
    C.Relates (fun i => enter (execute₁ i) f arguments) (Run.enter execute₂ f arguments) := by
  refine C.bind (C.small (.newEnvironment f.closure)) fun id => ?_
  refine C.bind (C.small (.defineAll id _)) fun _ => ?_
  refine C.bind (C.within id (sequence hx f.declaration.body)) fun flow => ?_
  refine C.ite (C.get (fun _ _ _ => rfl) fun m => C.pure _) ?_
  cases flow with
  | normal => exact C.pure Value.nil
  | returned v => exact C.pure v

theorem invoke (hx : ∀ s, C.Relates (fun i => execute₁ i s) (execute₂ s)) (callee : Callable)
    (arguments : List Value) :
    C.Relates (fun i => invoke (execute₁ i) callee arguments)
      (Run.invoke execute₂ callee arguments) := by
  cases callee with
  | native => exact C.bind (C.small .readClock) fun _ => C.pure _
  | function f => exact enter hx f arguments
  | «class» id initializer =>
      cases initializer with
      | none => exact C.bind (C.small (.newObject id)) fun _ => C.pure _
      | some f =>
          refine C.bind (C.small (.newObject id)) fun receiver => ?_
          refine C.bind (C.bindMethod f receiver) fun g => ?_
          exact C.bind (enter hx g arguments) fun _ => C.pure _

theorem callValue (hx : ∀ s, C.Relates (fun i => execute₁ i s) (execute₂ s)) (callee : Value)
    (paren : Token) (arguments : List Value) :
    C.Relates (fun i => callValue (execute₁ i) callee paren arguments)
      (Run.callValue execute₂ callee paren arguments) := by
  refine C.get (fun _ _ _ => rfl) fun m => ?_
  cases m.heap.callable? callee with
  | none => exact C.raise _ paren
  | some c => exact C.ite (invoke hx c arguments) (C.raise _ paren)

theorem superclass (he : ∀ e, C.Relates (fun i => evaluate₁ i e) (evaluate₂ e)) (name : Token)
    (clause : Expr) :
    C.Relates (fun i => superclass (evaluate₁ i) name clause)
      (Run.superclass evaluate₂ name clause) := by
  refine C.bind (he clause) fun v => ?_
  cases v with
  | «class» id => exact C.pure id
  | _ => cases clause <;> exact C.raise _ _

variable (C) (evaluate₁) (execute₁)

theorem expression (he : ∀ e, C.Relates (fun i => evaluate₁ i e) (evaluate₂ e))
    (hx : ∀ s, C.Relates (fun i => execute₁ i s) (execute₂ s)) (e : Expr) :
    C.Relates (fun i => e.step (evaluate₁ i) (execute₁ i)) (e.step evaluate₂ execute₂) := by
  cases e with
  | literal value => exact C.pure _
  | grouping inner => exact he inner
  | unary operator right => exact C.bind (he right) fun _ => C.ofExcept _
  | binary left operator right =>
      exact C.bind (he left) fun _ => C.bind (he right) fun _ => C.ofExcept _
  | logical left operator right =>
      exact C.bind (he left) fun a => C.ite (C.pure a) (he right)
  | «variable» site name => exact C.lookUp site name
  | assign site name value =>
      exact C.bind (he value) fun v => C.bind (C.overwrite site name v) fun _ => C.pure v
  | call callee paren arguments =>
      refine C.bind (he callee) fun c => C.bind (evaluateAll he arguments) fun vs => ?_
      exact callValue hx c paren vs
  | get object name =>
      refine C.bind (he object) fun v => ?_
      cases v with
      | object id => exact C.property id name
      | _ => exact C.raise _ name
  | set object name value =>
      refine C.bind (he object) fun v => ?_
      cases v with
      | object id =>
          refine C.bind (he value) fun w => ?_
          exact C.bind (C.small (.setField id name.lexeme w)) fun _ => C.pure w
      | _ => exact C.raise _ name
  | this site keyword => exact C.lookUp site keyword
  | super site keyword method => exact C.superMethod site keyword method

/-- A statement that does not print is related if what is inside it is. -/
theorem statement (he : ∀ e, C.Relates (fun i => evaluate₁ i e) (evaluate₂ e))
    (hx : ∀ s, C.Relates (fun i => execute₁ i s) (execute₂ s)) (s : Stmt)
    (silent : ∀ e, s ≠ .print e) :
    C.Relates (fun i => s.step (evaluate₁ i) (execute₁ i)) (s.step evaluate₂ execute₂) := by
  cases s with
  | expression value => exact C.bind (he value) fun _ => C.pure _
  | print value => exact absurd rfl (silent value)
  | var name initializer =>
      cases initializer with
      | none => exact C.bind (C.defineHere _ _) fun _ => C.pure _
      | some value =>
          exact C.bind (he value) fun v => C.bind (C.defineHere _ v) fun _ => C.pure _
  | block body =>
      refine C.get (fun _ _ _ => rfl) fun m => ?_
      exact C.bind (C.small (.newEnvironment _)) fun id => C.within id (sequence hx body)
  | branch condition consequence alternative =>
      refine C.bind (he condition) fun v => C.ite (hx consequence) ?_
      cases alternative with
      | none => exact C.pure _
      | some s => exact hx s
  | «while» condition body =>
      refine C.bind (he condition) fun v => C.ite (C.bind (hx body) fun flow => ?_) (C.pure _)
      cases flow with
      | normal => exact hx _
      | returned v => exact C.pure _
  | function d =>
      refine C.get (fun _ _ _ => rfl) fun m => ?_
      exact C.bind (C.small (.newFunction _)) fun id =>
        C.bind (C.defineHere _ _) fun _ => C.pure _
  | «return» keyword value =>
      cases value with
      | none => exact C.pure _
      | some value => exact C.bind (he value) fun v => C.pure _
  | «class» name clause methods =>
      cases clause with
      | none => exact C.bind (C.declareClass name none methods) fun _ => C.pure _
      | some clause =>
          refine C.bind (superclass he name clause) fun above => ?_
          exact C.bind (C.declareClass name (some above) methods) fun _ => C.pure _

end Congruence

end Run

end Lox
