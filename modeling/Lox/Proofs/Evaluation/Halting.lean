import Lox.Bind
import Lox.Proofs.Evaluation.Watched
import Lox.Proofs.Grammar.Outcome

/-!
# What an execution halts with

`Run.HaltsOnly allowed step` says that a step halts for no reason but those allowed, whatever
machine it is taken on.  Evaluating an expression and executing a statement can halt with most
errors at any time, but not with all: operators are known if the grammar promises it, and a
superclass that is no class is reported under its own name.

The nodes that an execution comes to are those that it passes a watcher at.  So what holds
throughout an execution tells what it can halt with (`halt_possible`).
-/

namespace Lox

/-- The errors that come of nodes among these, as the grammar promises them. -/
structure RuntimeError.Possible (nodes : List Node) (e : RuntimeError) : Prop where
  unary : e.fault ≠ .invalidUnaryOperator
  binary : e.fault ≠ .invalidBinaryOperator
  /-- A superclass that is no class is the variable that a superclass clause names. -/
  superclass : e.fault = .superclassNotClass → ∃ name site methods,
    Node.stmt (.class name (some (.variable site e.culprit)) methods) ∈ nodes

def Halt.Possible (nodes : List Node) : Halt → Prop
  | .error e => e.Possible nodes
  | .output _ => True
  | .outOfFuel => True

/-- Only messages about invalid operators start as these do. -/
theorem RuntimeError.head?_message {e : RuntimeError} (unary : e.fault ≠ .invalidUnaryOperator)
    (binary : e.fault ≠ .invalidBinaryOperator) : e.message.toList.head? ≠ some 'I' := by
  obtain ⟨fault, culprit⟩ := e
  cases fault <;> simp [RuntimeError.message] at unary binary ⊢

/-- A message that starts in another way is not about an invalid operator. -/
theorem message_ne_of_head? {message : String} (head : message.toList.head? ≠ some 'I')
    (operator : String) :
    message ≠ "Invalid unary operator '" ++ operator ++ "'." ∧
      message ≠ "Invalid binary operator '" ++ operator ++ "'." := by
  constructor <;> rintro rfl <;> simp at head

theorem Value.fault_of_unary {operator : Token}
    (regular : operator.kind = .symbol .bang ∨ operator.kind = .symbol .minus) {v : Value}
    {e : RuntimeError} (faulty : Value.unary operator v = .error e) :
    e = ⟨.operandNotNumber, operator⟩ := by
  rcases regular with kind | kind <;> cases v <;> simp_all [Value.unary]

theorem Value.fault_of_binary {operator : Token}
    (regular : ∃ mark ∈ binaryMarks, operator.kind = .symbol mark) {a b : Value} {e : RuntimeError}
    (faulty : Value.binary operator a b = .error e) :
    e.fault = .operandsNotAddable ∨ e.fault = .operandsNotNumbers := by
  obtain ⟨mark, known, kind⟩ := regular
  unfold Value.binary at faulty
  rw [kind] at faulty
  split at faulty
  · cases faulty
  · cases faulty
  · split at faulty <;> cases faulty
    exact .inl rfl
  · split at faulty
    · unfold Value.arithmetic at faulty
      rw [kind] at faulty
      cases mark <;> simp_all [binaryMarks]
    · cases faulty
      exact .inr rfl

namespace Run

variable {α β : Type} {allowed : Halt → Prop}

def HaltsOnly (allowed : Halt → Prop) (x : Run α) : Prop :=
  ∀ m halt m', x m = .error halt m' → allowed halt

namespace HaltsOnly

theorem pure (a : α) : HaltsOnly allowed (pure a) := by
  intro m halt m' halted
  cases halted

theorem throw {halt : Halt} (h : allowed halt) : HaltsOnly allowed (throw halt : Run α) := by
  intro m halt' m' halted
  cases halted
  exact h

theorem of_ok {x : Run α} (h : ∀ m, ∃ a m', x m = .ok a m') : HaltsOnly allowed x := by
  intro m halt m' halted
  obtain ⟨a, m'', ran⟩ := h m
  rw [ran] at halted
  cases halted

theorem bind {x : Run β} {f : β → Run α} (hx : HaltsOnly allowed x)
    (hf : ∀ b, HaltsOnly allowed (f b)) : HaltsOnly allowed (x >>= f) := by
  intro m halt m' halted
  rcases bind_eq_error_iff.1 halted with first | ⟨b, m'', -, second⟩
  · exact hx m halt m' first
  · exact hf b m'' halt m' second

theorem get {f : Machine → Run α} (h : ∀ m, HaltsOnly allowed (f m)) :
    HaltsOnly allowed (get >>= f) := by
  intro m
  exact h m m

theorem within {x : Run α} (id : EnvironmentId) (h : HaltsOnly allowed x) :
    HaltsOnly allowed (within id x) := by
  intro m halt m' halted
  unfold Run.within at halted
  cases ran : x { m with current := id } with
  | ok a m'' =>
      rw [ran] at halted
      cases halted
  | error halt' m'' =>
      rw [ran] at halted
      cases halted
      exact h _ _ _ ran

/-! ### Small steps -/

theorem define (id : EnvironmentId) (name : String) (value : Value) :
    HaltsOnly allowed (define id name value) := of_ok fun _ => ⟨_, _, rfl⟩

theorem defineHere (name : String) (value : Value) : HaltsOnly allowed (defineHere name value) :=
  of_ok fun _ => ⟨_, _, rfl⟩

theorem newEnvironment (outer : EnvironmentId) : HaltsOnly allowed (newEnvironment outer) :=
  of_ok fun _ => ⟨_, _, rfl⟩

theorem bindMethod (f : Function) (receiver : ObjectId) :
    HaltsOnly allowed (bindMethod f receiver) := of_ok fun _ => ⟨_, _, rfl⟩

theorem boundMethod (f : Function) (receiver : ObjectId) :
    HaltsOnly allowed (boundMethod f receiver) := of_ok fun _ => ⟨_, _, rfl⟩

theorem methodEnvironment (above : Option ClassId) : HaltsOnly allowed (methodEnvironment above) :=
  of_ok fun _ => by cases above <;> exact ⟨_, _, rfl⟩

variable {nodes : List Node}

/-- Errors that may come of any node. -/
theorem raise {fault : RuntimeFault} (unary : fault ≠ .invalidUnaryOperator)
    (binary : fault ≠ .invalidBinaryOperator) (superclass : fault ≠ .superclassNotClass)
    (culprit : Token) : HaltsOnly (Halt.Possible nodes) (raise fault culprit : Run α) :=
  throw ⟨unary, binary, fun h => absurd h superclass⟩

theorem lookUp (site : Site) (name : Token) :
    HaltsOnly (Halt.Possible nodes) (lookUp site name) := by
  apply get
  intro m
  split
  · exact pure _
  · exact raise (by decide) (by decide) (by decide) name

theorem overwrite (site : Site) (name : Token) (value : Value) :
    HaltsOnly (Halt.Possible nodes) (overwrite site name value) := by
  apply get
  intro m
  split
  · exact define _ _ _
  · exact raise (by decide) (by decide) (by decide) name

theorem property (id : ObjectId) (name : Token) :
    HaltsOnly (Halt.Possible nodes) (property id name) := by
  apply get
  intro m
  split
  · exact raise (by decide) (by decide) (by decide) name
  · split
    · exact pure _
    · split
      · exact boundMethod _ _
      · exact raise (by decide) (by decide) (by decide) name

theorem superMethod (site : Site) (keyword method : Token) :
    HaltsOnly (Halt.Possible nodes) (superMethod site keyword method) := by
  apply get
  intro m
  split
  · exact raise (by decide) (by decide) (by decide) keyword
  · split
    · dsimp only
      split
      · split
        · exact boundMethod _ _
        · exact raise (by decide) (by decide) (by decide) method
      · exact raise (by decide) (by decide) (by decide) keyword
    · exact raise (by decide) (by decide) (by decide) keyword

theorem writeAll (pieces : List String) : HaltsOnly (Halt.Possible nodes) (writeAll pieces) := by
  induction pieces with
  | nil => exact pure ()
  | cons piece pieces ih =>
      have write : HaltsOnly (Halt.Possible nodes) (write piece) := by
        apply get
        intro m
        split
        · exact of_ok fun _ => ⟨_, _, rfl⟩
        · exact throw trivial
      exact write.bind fun _ => ih

theorem flush : HaltsOnly (Halt.Possible nodes) flush := by
  apply get
  intro m
  split
  · exact throw trivial
  · exact pure ()

theorem declareClass (name : Token) (above : Option ClassId) (methods : List FunctionDecl) :
    HaltsOnly (Halt.Possible nodes) (declareClass name above methods) := by
  refine (defineHere name.lexeme .nil).bind fun _ => ?_
  refine (methodEnvironment above).bind fun closure => ?_
  refine HaltsOnly.bind (of_ok fun _ => ⟨_, _, rfl⟩) fun id => get fun m => ?_
  split
  · exact define _ _ _
  · exact raise (by decide) (by decide) (by decide) name

theorem ofExcept {r : Except RuntimeError α} (h : ∀ e, r = .error e → e.Possible nodes) :
    HaltsOnly (Halt.Possible nodes) (ofExcept r) := by
  cases r with
  | ok a => exact pure a
  | error e => exact throw (h e rfl)

/-! ### Expressions and statements -/

variable {evaluate : Expr → Run Value} {execute : Stmt → Run Flow}

theorem sequence (hx : ∀ s, HaltsOnly allowed (execute s)) (ss : List Stmt) :
    HaltsOnly allowed (sequence execute ss) := by
  induction ss with
  | nil => exact pure _
  | cons s ss ih =>
      refine (hx s).bind fun flow => ?_
      cases flow with
      | normal => exact ih
      | returned value => exact pure _

theorem evaluateAll (he : ∀ e, HaltsOnly allowed (evaluate e)) (es : List Expr) :
    HaltsOnly allowed (evaluateAll evaluate es) := by
  induction es with
  | nil => exact pure _
  | cons e es ih => exact (he e).bind fun _ => ih.bind fun _ => pure _

theorem enter (hx : ∀ s, HaltsOnly allowed (execute s)) (f : Function) (arguments : List Value) :
    HaltsOnly allowed (enter execute f arguments) := by
  refine (newEnvironment f.closure).bind fun environment => ?_
  refine HaltsOnly.bind (of_ok fun _ => ⟨_, _, rfl⟩) fun _ => ?_
  refine (within environment (sequence hx f.declaration.body)).bind fun flow => ?_
  cases f.isInitializer with
  | true => exact of_ok fun _ => ⟨_, _, rfl⟩
  | false => cases flow <;> exact pure _

theorem callValue (hx : ∀ s, HaltsOnly (Halt.Possible nodes) (execute s)) (callee : Value)
    (paren : Token) (arguments : List Value) :
    HaltsOnly (Halt.Possible nodes) (callValue execute callee paren arguments) := by
  apply get
  intro m
  split
  · exact raise (by decide) (by decide) (by decide) paren
  · split
    · rename_i callable _ _
      cases callable with
      | native => exact of_ok fun _ => ⟨_, _, rfl⟩
      | function f => exact enter hx f arguments
      | «class» id initializer =>
          cases initializer with
          | none => exact of_ok fun _ => ⟨_, _, rfl⟩
          | some f =>
              refine HaltsOnly.bind (of_ok fun _ => ⟨_, _, rfl⟩) fun receiver => ?_
              refine (bindMethod f receiver).bind fun g => ?_
              exact (enter hx g arguments).bind fun _ => pure _
    · exact raise (by simp) (by simp) (by simp) paren

/-- An expression that the grammar promises halts with what its parts halt with, or with an error of
another kind. -/
theorem expression (he : ∀ e, HaltsOnly (Halt.Possible nodes) (evaluate e))
    (hx : ∀ s, HaltsOnly (Halt.Possible nodes) (execute s)) {e : Expr}
    (grammatical : (Node.expr e).Grammatical) :
    HaltsOnly (Halt.Possible nodes) (e.step evaluate execute) := by
  cases e with
  | literal value => exact pure _
  | grouping inner => exact he inner
  | unary operator right =>
      refine (he right).bind fun v => ofExcept fun e faulty => ?_
      rw [Value.fault_of_unary grammatical.regular faulty]
      exact ⟨nofun, nofun, nofun⟩
  | binary left operator right =>
      refine (he left).bind fun a => (he right).bind fun b => ofExcept fun e faulty => ?_
      obtain fault | fault := Value.fault_of_binary grammatical.regular faulty
      · exact ⟨by simp [fault], by simp [fault], by simp [fault]⟩
      · exact ⟨by simp [fault], by simp [fault], by simp [fault]⟩
  | logical left operator right =>
      refine (he left).bind fun a => ?_
      split
      · exact pure _
      · exact he right
  | «variable» site name => exact lookUp site name
  | assign site name value =>
      exact (he value).bind fun v => (overwrite site name v).bind fun _ => pure _
  | call callee paren arguments =>
      refine (he callee).bind fun c => (evaluateAll he arguments).bind fun vs => ?_
      exact callValue hx c paren vs
  | get object name =>
      refine (he object).bind fun v => ?_
      split
      · exact property _ name
      · exact raise (by decide) (by decide) (by decide) name
  | set object name value =>
      refine (he object).bind fun v => ?_
      split
      · exact (he value).bind fun v => of_ok fun _ => ⟨_, _, rfl⟩
      · exact raise (by decide) (by decide) (by decide) name
  | this site keyword => exact lookUp site keyword
  | super site keyword method => exact superMethod site keyword method

/-- The superclass clause of a class declaration is a variable, so an error about it names that. -/
theorem superclass (he : ∀ e, HaltsOnly (Halt.Possible nodes) (evaluate e)) {name : Token}
    {clause : Expr} {methods : List FunctionDecl}
    (grammatical : (Node.stmt (.class name (some clause) methods)).Grammatical)
    (mem : Node.stmt (.class name (some clause) methods) ∈ nodes) :
    HaltsOnly (Halt.Possible nodes) (superclass evaluate name clause) := by
  refine (he clause).bind fun v => ?_
  split
  · exact pure _
  · have named : clause.isName := grammatical.formed.2.1 clause rfl
    cases clause with
    | «variable» site superclassName =>
        exact throw ⟨nofun, nofun, fun _ => ⟨name, site, methods, mem⟩⟩
    | _ => cases named

theorem statement (he : ∀ e, HaltsOnly (Halt.Possible nodes) (evaluate e))
    (hx : ∀ s, HaltsOnly (Halt.Possible nodes) (execute s)) {s : Stmt}
    (grammatical : (Node.stmt s).Grammatical) (mem : Node.stmt s ∈ nodes) :
    HaltsOnly (Halt.Possible nodes) (s.step evaluate execute) := by
  cases s with
  | expression value => exact (he value).bind fun _ => pure _
  | print value => exact (he value).bind fun v => get fun m => (writeAll _).bind fun _ => pure _
  | var name initializer =>
      cases initializer with
      | none => exact (defineHere _ _).bind fun _ => pure _
      | some e => exact (he e).bind fun v => (defineHere _ v).bind fun _ => pure _
  | block body =>
      refine get fun m => (newEnvironment _).bind fun environment => ?_
      exact within environment (sequence hx body)
  | branch condition consequence alternative =>
      refine (he condition).bind fun v => ?_
      split
      · exact hx consequence
      · cases alternative with
        | none => exact pure _
        | some s => exact hx s
  | «while» condition body =>
      refine (he condition).bind fun v => ?_
      split
      · refine (hx body).bind fun flow => ?_
        cases flow with
        | normal => exact hx _
        | returned value => exact pure _
      · exact pure _
  | function d => exact of_ok fun _ => ⟨_, _, rfl⟩
  | «return» keyword value =>
      cases value with
      | none => exact pure _
      | some e => exact (he e).bind fun v => pure _
  | «class» name clause methods =>
      cases clause with
      | none => exact (declareClass name none methods).bind fun _ => pure _
      | some clause =>
          exact (superclass he grammatical mem).bind fun above =>
            (declareClass name (some above) methods).bind fun _ => pure _

/-- A step that is taken after a check is only taken where the check succeeds. -/
theorem checked {P : Node → Machine → Prop} {n : Node} {x : Run α}
    (h : (∃ m, P n m) → HaltsOnly (Halt.Possible nodes) x) :
    HaltsOnly (Halt.Possible nodes) (do Run.check P (MonadExcept.throw .outOfFuel) n; x) := by
  intro m halt m' halted
  by_cases holds : P n m
  · rw [bind_of_ok (if_pos holds : Run.check P _ n m = .ok () m)] at halted
    exact h ⟨m, holds⟩ m halt m' halted
  · rw [bind_of_error (if_neg holds : Run.check P _ n m = .error .outOfFuel m)] at halted
    cases halted
    trivial

/-- Evaluations and executions that go on only where the nodes are known and grammatical. -/
theorem watched {P : Node → Machine → Prop} (known : ∀ n m, P n m → n.Grammatical ∧ n ∈ nodes)
    (fuel : Nat) :
    (∀ e, HaltsOnly (Halt.Possible nodes)
      (evaluateWatched (Run.check P (MonadExcept.throw .outOfFuel)) fuel e)) ∧
    ∀ s, HaltsOnly (Halt.Possible nodes)
      (executeWatched (Run.check P (MonadExcept.throw .outOfFuel)) fuel s) := by
  induction fuel with
  | zero => exact ⟨fun _ => throw trivial, fun _ => throw trivial⟩
  | succ fuel ih =>
      obtain ⟨he, hx⟩ := ih
      constructor
      · exact fun e => checked fun ⟨m, holds⟩ => expression he hx (known _ m holds).1
      · exact fun s => checked fun ⟨m, holds⟩ =>
          statement he hx (known _ m holds).1 (known _ m holds).2

end HaltsOnly

end Run

/-- An execution of nodes that are known and as the grammar promises them halts with what can come
of them. -/
theorem halt_possible {P : Node → Machine → Prop} {nodes : List Node}
    (known : ∀ n m, P n m → n.Grammatical ∧ n ∈ nodes) {fuel : Nat} {ss : List Stmt} {m : Machine}
    (holds : Throughout P fuel ss m) {halt : Halt} {m' : Machine}
    (halted : executeAll fuel ss m = .error halt m') : halt.Possible nodes := by
  have all : Run.HaltsOnly (Halt.Possible nodes)
      (executeAllWatched (Run.check P (throw .outOfFuel)) fuel ss) := by
    clear holds halted
    induction ss with
    | nil => exact .flush
    | cons s ss ih => exact ((Run.HaltsOnly.watched known fuel).2 s).bind fun _ => ih
  rw [← holds (throw .outOfFuel)] at halted
  exact all m halt m' halted

end Lox
