import Lox.Proofs.Evaluation.Retention
import Lox.Proofs.Evaluation.Return
import Lox.Proofs.Grammar.Loop
import Lox.Proofs.Heap.Receiver

/-!
# Executing a loop

An execution leads to those that it starts in the same call, and to those in the calls of functions
that it declares, at any later time (`Point.Leads`).  If a block declares a variable first,
everything else that it leads to is inside the environment that the block has opened
(`Point.inside_of_block`), and so are the functions and methods that are declared there
(`Point.Shares`).  A `for` statement with a variable is such a block, and its rounds are executed
inside it, so all closures of the loop share one variable.

A `return` anywhere in the loop ends it at once (`Point.runs_of_reaches`).
-/

namespace Lox

open Run

/-! ### Inside an environment -/

/-- The environment is `outer` or inside it. -/
def Forest.Surrounds (f : Forest) (outer id : EnvironmentId) : Prop :=
  ∃ distance, f.ancestor? id distance = some outer

namespace Forest

variable {f f' : Forest} {outer id inner : EnvironmentId}

theorem Surrounds.refl (f : Forest) (id : EnvironmentId) : f.Surrounds id id := ⟨0, rfl⟩

theorem Surrounds.of_enclosing (h : f.Surrounds outer id)
    (encloses : f.enclosing? inner = some id) : f.Surrounds outer inner := by
  obtain ⟨distance, reached⟩ := h
  refine ⟨distance + 1, ?_⟩
  rw [ancestor?, encloses]
  exact reached

theorem Surrounds.mono (h : f.Surrounds outer id) (retains : f.Retains f') :
    f'.Surrounds outer id :=
  let ⟨distance, reached⟩ := h
  ⟨distance, retains.ancestor? reached⟩

theorem Surrounds.trans (h : f.Surrounds outer id) (h' : f.Surrounds id inner) :
    f.Surrounds outer inner := by
  obtain ⟨distance, reached⟩ := h'
  induction distance generalizing inner with
  | zero =>
      cases reached
      exact h
  | succ distance ih =>
      obtain ⟨next, encloses, reached⟩ := Option.bind_eq_some_iff.1 reached
      exact (ih reached).of_enclosing encloses

@[simp] theorem enclosing?_grow_next (f : Forest) (id : EnvironmentId) :
    (f.grow (some id)).enclosing? f.next = some id := by
  simp [enclosing?, environment?, grow, next]

end Forest

namespace Run

variable {fuel : Nat} {m m' : Machine}

theorem retains_of_evaluate {e : Expr} {v : Value} (ran : evaluate fuel e m = .ok v m') :
    m.Retains m' := by
  have kept : m.Retains ((evaluate fuel e).leaves m) := (Retention.leaves (.of_beside fun alarm =>
    ((Retention.respected m.distances).besides alarm fuel).1 trivial)).1
  rwa [leaves, ran] at kept

theorem retains_of_execute {s : Stmt} {flow : Flow} (ran : execute fuel s m = .ok flow m') :
    m.Retains m' := by
  have kept : m.Retains ((execute fuel s).leaves m) := (Retention.leaves (.of_beside fun alarm =>
    ((Retention.respected m.distances).besides alarm fuel).2 trivial)).1
  rwa [leaves, ran] at kept

theorem retains_of_sequence {ss : List Stmt} {flow : Flow}
    (ran : sequence (execute fuel) ss m = .ok flow m') : m.Retains m' := by
  induction ss generalizing m with
  | nil =>
      cases ran
      exact .refl _
  | cons s ss ih =>
      obtain ⟨flow', m₁, first, rest⟩ := bind_eq_ok_iff.1 ran
      cases flow' with
      | normal => exact (retains_of_execute first).trans (ih rest)
      | returned v =>
          cases rest
          exact retains_of_execute first

end Run

namespace Point

variable {p q : Point} {e : EnvironmentId} {name : String}

/-- The point is inside an environment that holds a name. -/
structure Inside (e : EnvironmentId) (name : String) (p : Point) : Prop where
  surrounds : p.machine.heap.forest.Surrounds e p.machine.current
  holds : (p.machine.heap.forest.own? e name).isSome

theorem Inside.of_retains (h : p.Inside e name) (retains : p.machine.Retains q.machine) :
    q.Inside e name where
  surrounds := by
    rw [retains.current]
    exact h.surrounds.mono retains.environments
  holds := retains.environments.holds e name h.holds

/-- What is started in a machine that is inside an environment is inside it. -/
theorem Starts.inside (starts : Starts unwatched p q) (h : p.Inside e name) : q.Inside e name := by
  have plain (fuel : Nat) : executeWatched unwatched fuel = execute fuel :=
    (watched_unwatched fuel).2
  have condition {fuel : Nat} {e : Expr} {m m' : Machine} {v : Value}
      (ran : evaluateWatched unwatched fuel e m = .ok v m') : m.Retains m' := by
    rw [(watched_unwatched fuel).1] at ran
    exact retains_of_evaluate ran
  cases starts with
  | @block fuel m m₁ m₂ body before st after watched _ normal =>
      cases watched
      rw [plain] at normal
      have entered : Inside e name ⟨fuel, st, m.inside⟩ := {
        surrounds := (h.surrounds.mono (m.heap.forest.retains_grow _)).of_enclosing
          (m.heap.forest.enclosing?_grow_next m.current)
        holds := (m.heap.forest.retains_grow _).holds e name h.holds }
      exact entered.of_retains (retains_of_sequence normal)
  | consequence watched evaluated _ =>
      cases watched
      exact h.of_retains (condition evaluated)
  | alternative watched evaluated _ =>
      cases watched
      exact h.of_retains (condition evaluated)
  | body watched evaluated _ =>
      cases watched
      exact h.of_retains (condition evaluated)
  | again watched evaluated _ round =>
      cases watched
      rw [plain] at round
      exact h.of_retains ((condition evaluated).trans (retains_of_execute round))

/-- Where a variable was declared, it is held. -/
theorem inside_of_var {fuel : Nat} {name : Token} {value : Option Expr} {m m' : Machine}
    {flow : Flow} (made : m.current.index < m.heap.forest.environments.size)
    (ran : execute fuel (.var name value) m = .ok flow m') (fuel' : Nat) (st : Stmt) :
    Inside m.current name.lexeme ⟨fuel', st, m'⟩ := by
  have defined {v : Value} {m₁ : Machine} (kept : m.Retains m₁)
      (ran : defineHere name.lexeme v m₁ = .ok () m') :
      Inside m.current name.lexeme ⟨fuel', st, m'⟩ := by
    cases ran
    have current : m₁.current = m.current := kept.current
    have still : (m₁.heap.forest.environment? m₁.current).isSome := by
      have below := Nat.lt_of_lt_of_le made kept.environments.size
      rw [current]
      exact Option.isSome_iff_exists.2 ⟨_, Array.getElem?_eq_getElem below⟩
    refine ⟨?_, ?_⟩
    · exact current ▸ .refl _ _
    · change ((m₁.heap.forest.define m₁.current name.lexeme v).own? m.current name.lexeme).isSome
      rw [← current, Forest.own?_define_self _ _ _ _ still]
      rfl
  cases fuel with
  | zero => cases ran
  | succ fuel =>
      cases value with
      | none =>
          obtain ⟨⟨⟩, m₁, ran, rest⟩ := bind_eq_ok_iff.1 ran
          cases rest
          exact defined (.refl m) ran
      | some value =>
          obtain ⟨v, m₁, evaluated, rest⟩ := bind_eq_ok_iff.1 ran
          obtain ⟨⟨⟩, m₂, ran, rest⟩ := bind_eq_ok_iff.1 rest
          cases rest
          exact defined (retains_of_evaluate evaluated) ran

/-- A function is entered inside the environment that it is closed over. -/
theorem inside_of_called {f : Function} {m : Machine} {name : String}
    (closed : m.heap.forest.Surrounds e f.closure)
    (holds : (m.heap.forest.own? e name).isSome) (arguments : List Value) (fuel : Nat)
    (st : Stmt) : Inside e name ⟨fuel, st, m.called f arguments⟩ := by
  have kept := (m.heap.forest.retains_grow (some f.closure)).trans
    (Forest.retains_defineAll _ m.heap.forest.next
      ((f.declaration.parameters.map Token.lexeme).zip arguments))
  refine ⟨(closed.mono kept).of_enclosing ?_, kept.holds e name holds⟩
  change (Forest.defineAll _ _ _).enclosing? m.heap.forest.next = _
  rw [Forest.enclosing?_defineAll, Forest.enclosing?_grow_next]

end Point

/-! ### What declarations make -/

def Machine.Has (m : Machine) (f : Function) : Prop :=
  f ∈ m.heap.functions ∨ ∃ c ∈ m.heap.classes, ∃ key, c.methods.get? key = some f

/-- The statement declares functions or methods, and evaluates nothing but a name for it. -/
def Stmt.Makes : Stmt → Prop
  | .function _ => True
  | .class _ clause _ => ∀ e ∈ clause, e.isName
  | _ => False

namespace Run

variable {m m' : Machine}

/-- Methods are closed over the current environment or one in it. -/
theorem surrounds_of_methodEnvironment {above : Option ClassId} {closure : EnvironmentId}
    (ran : methodEnvironment above m = .ok closure m') :
    m'.heap.functions = m.heap.functions ∧ m'.heap.classes = m.heap.classes ∧
      m'.current = m.current ∧ m'.heap.forest.Surrounds m.current closure := by
  cases above with
  | none =>
      cases ran
      exact ⟨rfl, rfl, rfl, .refl _ _⟩
  | some id =>
      cases ran
      refine ⟨rfl, rfl, rfl, Forest.Surrounds.of_enclosing (.refl _ m.current) ?_⟩
      change (Forest.define _ m.heap.forest.next superName (.class id)).enclosing? _ = _
      rw [Forest.enclosing?_define, Forest.enclosing?_grow_next]

/-- A class that is declared has methods that are closed over the current environment or one in it,
and nothing else is new. -/
theorem surrounds_of_declareClass {name : Token} {above : Option ClassId}
    {methods : List FunctionDecl} (ran : declareClass name above methods m = .ok () m')
    {f : Function} (has : m'.Has f) : m.Has f ∨ m'.heap.forest.Surrounds m.current f.closure := by
  obtain ⟨⟨⟩, m₁, defined, ran⟩ := bind_eq_ok_iff.1 ran
  cases defined
  obtain ⟨closure, m₂, opened, ran⟩ := bind_eq_ok_iff.1 ran
  obtain ⟨functions, classes, current, surrounds⟩ := surrounds_of_methodEnvironment opened
  obtain ⟨id, m₃, made, ran⟩ := bind_eq_ok_iff.1 ran
  cases made
  obtain ⟨_, _, here, ran⟩ := bind_eq_ok_iff.1 ran
  cases here
  dsimp only at ran
  generalize Forest.holder? _ _ _ = holder at ran
  cases holder with
  | none => cases ran
  | some holder =>
    cases ran
    rcases has with has | ⟨c, mem, key, found⟩
    · exact .inl (.inl (functions ▸ has))
    · rcases Array.mem_push.1 mem with mem | rfl
      · exact .inl (.inr ⟨c, classes ▸ mem, key, found⟩)
      · obtain ⟨-, -, -, same⟩ := mem_of_methodTable found
        right
        rw [same]
        exact surrounds.mono (Forest.retains_define _ _ _ _)

theorem eq_of_lookUp {site : Site} {name : Token} {v : Value}
    (ran : lookUp site name m = .ok v m') : m' = m := by
  obtain ⟨_, _, here, ran⟩ := bind_eq_ok_iff.1 ran
  cases here
  generalize Machine.valueAt? _ _ _ = found at ran
  cases found <;> cases ran
  rfl

theorem eq_of_superclass {fuel : Nat} {name : Token} {clause : Expr} (named : clause.isName)
    {above : ClassId} (ran : superclass (evaluate fuel) name clause m = .ok above m') : m' = m := by
  cases clause with
  | «variable» site token =>
      obtain ⟨v, m₁, evaluated, ran⟩ := bind_eq_ok_iff.1 ran
      have same : m₁ = m := by
        cases fuel with
        | zero => cases evaluated
        | succ fuel => exact eq_of_lookUp evaluated
      cases v <;> cases ran
      exact same
  | _ => cases named

end Run

/-- What a declaration inside an environment makes is closed over it or an environment in it. -/
theorem Point.Inside.surrounds_of_makes {p : Point} {e : EnvironmentId} {name : String}
    (h : p.Inside e name) (makes : p.statement.Makes) {flow : Flow} {m : Machine}
    (ran : p.runs unwatched = .ok flow m) {f : Function} (has : m.Has f) :
    p.machine.Has f ∨ m.heap.forest.Surrounds e f.closure := by
  obtain ⟨fuel, st, m₀⟩ := p
  unfold Point.runs at ran
  rw [(watched_unwatched fuel).2] at ran
  have outer : m.heap.forest.Surrounds e m₀.current :=
    h.surrounds.mono (retains_of_execute ran).environments
  cases fuel with
  | zero => cases ran
  | succ fuel =>
      cases st with
      | function d =>
          cases ran
          rcases has with mem | has
          · rcases Array.mem_push.1 mem with mem | rfl
            · exact .inl (.inl mem)
            · exact .inr outer
          · exact .inl (.inr has)
      | «class» cname clause methods =>
          cases clause with
          | none =>
              obtain ⟨⟨⟩, _, declared, ran⟩ := bind_eq_ok_iff.1 ran
              cases ran
              exact (surrounds_of_declareClass declared has).imp_right outer.trans
          | some clause =>
              obtain ⟨above, m₁, found, rest⟩ := bind_eq_ok_iff.1 ran
              obtain rfl : m₁ = m₀ := eq_of_superclass (makes clause rfl) found
              obtain ⟨⟨⟩, _, declared, rest⟩ := bind_eq_ok_iff.1 rest
              cases rest
              exact (surrounds_of_declareClass declared has).imp_right outer.trans
      | _ => exact makes.elim

namespace Point

variable {p q : Point} {e : EnvironmentId} {name : String}

/-- What an execution leads to: the executions that it starts in the same call, and those that are
started by the body of a function that it has declared, when that is called later.  A method is
called as a copy that is closed over an environment inside. -/
inductive Leads : Point → Point → Prop
  | starts {p q : Point} : Starts unwatched p q → Leads p q
  | calls {p : Point} {flow : Flow} {made m m₁ : Machine} {f g : Function}
      {arguments : List Value} {fuel : Nat} {before : List Stmt} {st : Stmt} {after : List Stmt} :
      p.statement.Makes → p.runs unwatched = .ok flow made → made.Has f → ¬p.machine.Has f →
      made.heap.forest.Retains m.heap.forest → g.declaration = f.declaration →
      m.heap.forest.Surrounds f.closure g.closure → g.declaration.body = before ++ st :: after →
      sequence (execute fuel) before (m.called g arguments) = .ok .normal m₁ →
      Leads p ⟨fuel, st, m₁⟩

/-- The execution is inside an environment that holds a name, and so are the functions and methods
that it declares. -/
structure Shares (e : EnvironmentId) (name : String) (p : Point) : Prop
    extends Inside e name p where
  closures : p.statement.Makes → ∀ flow m f, p.runs unwatched = .ok flow m → m.Has f →
    p.machine.Has f ∨ m.heap.forest.Surrounds e f.closure

/-- What is led to from inside an environment is inside it. -/
theorem Inside.of_leads (h : p.Inside e name) (leads : Leads p q) : q.Inside e name := by
  cases leads with
  | starts starts => exact starts.inside h
  | @calls flow made m m₁ f g arguments fuel before st after makes ran has new kept same bound split
      normal =>
      have closed := (h.surrounds_of_makes makes ran has).resolve_left new
      unfold runs at ran
      rw [(watched_unwatched p.fuel).2] at ran
      have held := (retains_of_execute ran).environments.holds e name h.holds
      have entered : Inside e name ⟨fuel, st, m.called g arguments⟩ :=
        inside_of_called ((closed.mono kept).trans bound) (kept.holds e name held) arguments fuel st
      exact entered.of_retains (retains_of_sequence normal)

theorem Inside.of_reaches (h : p.Inside e name) (reaches : Relation.ReflTransGen Leads p q) :
    q.Inside e name := by
  induction reaches with
  | refl => exact h
  | tail _ leads ih => exact ih.of_leads leads

/-- What is declared inside an environment is closed over it. -/
theorem Inside.shares (h : p.Inside e name) : p.Shares e name where
  toInside := h
  closures makes _ _ _ ran has := h.surrounds_of_makes makes ran has

/-- A block starts its first statement, or another one once this has been executed. -/
theorem Starts.of_block {fuel : Nat} {first : Stmt} {rest : List Stmt} {m : Machine}
    (starts : Starts unwatched ⟨fuel + 1, .block (first :: rest), m⟩ q) :
    q = ⟨fuel, first, m.inside⟩ ∨
      ∃ flow m₁, execute fuel first m.inside = .ok flow m₁ ∧ m₁.Retains q.machine := by
  cases starts with
  | @block _ _ _ m₂ _ before st after watched split normal =>
      cases watched
      cases before with
      | nil =>
          cases normal
          obtain ⟨rfl, -⟩ := List.cons.inj split
          exact .inl rfl
      | cons s before =>
          obtain ⟨rfl, -⟩ := List.cons.inj split
          rw [(watched_unwatched fuel).2] at normal
          obtain ⟨flow, m₁, executed, normal⟩ := bind_eq_ok_iff.1 normal
          cases flow with
          | returned => cases normal
          | normal => exact .inr ⟨_, m₁, executed, retains_of_sequence normal⟩

/-- In a block that declares a variable first, everything but this declaration is inside the one
environment that holds the variable. -/
theorem inside_of_block {fuel : Nat} {name : Token} {value : Option Expr} {rest : List Stmt}
    {m : Machine}
    (leads : Relation.TransGen Leads ⟨fuel + 1, .block (.var name value :: rest), m⟩ q) :
    q = ⟨fuel, .var name value, m.inside⟩ ∨ q.Inside m.heap.forest.next name.lexeme := by
  obtain ⟨p, first, later⟩ := Relation.TransGen.head'_iff.1 leads
  cases first with
  | calls makes => cases makes
  | starts starts =>
      rcases starts.of_block with rfl | ⟨flow, m₁, declared, kept⟩
      · -- the declaration leads to nothing
        rcases later.cases_head with same | ⟨_, leads, -⟩
        · exact .inl same.symm
        · cases leads with
          | starts starts => cases starts
          | calls makes => cases makes
      · have made : m.inside.current.index < m.inside.heap.forest.environments.size := by
          simp [Machine.inside, Forest.grow, Forest.next]
        have inside := inside_of_var made declared p.fuel p.statement
        have start : p.Inside m.heap.forest.next name.lexeme := inside.of_retains kept
        exact .inr (start.of_reaches later)

/-- An execution in which one that it has started returns a value returns it too, and does nothing
more than to leave environments. -/
theorem runs_of_reaches {watch : Node → Run Unit} {v : Value} {m : Machine}
    (reaches : Relation.ReflTransGen (Starts watch) p q)
    (returned : q.runs watch = .ok (.returned v) m) :
    ∃ id, p.runs watch = .ok (.returned v) { m with current := id } := by
  induction reaches using Relation.ReflTransGen.head_induction_on with
  | refl => exact ⟨m.current, returned⟩
  | head starts _ ih =>
      obtain ⟨_, returned⟩ := ih
      obtain ⟨id, returned⟩ := starts.runs_of_returned returned
      exact ⟨id, returned⟩

end Point

end Lox
