import Mathlib.Logic.Relation
import Lox.Bind
import Lox.Proofs.Evaluation.Watched

/-!
# Returning

Where an execution returns is described by the executions that it starts in the same call: of a
statement of a block after those before it, of a branch, of the body of a loop, and of the loop
itself after a round (`Point.Starts`).  An execution returns a value exactly if it comes to a
`return` of this value in this way, and then it ends at once: nothing is different from how the
`return` left it, except that environments are left (`Point.runs_of_returns`,
`Point.returns_of_runs`).  This is so with every watcher, so no other node starts after a `return`.

The body of a function is executed in a new environment, and its call yields what its body returns
(`Run.enter_eq_ok_iff`).
-/

namespace Lox

namespace Run

variable {α β : Type} {m m' : Machine}

theorem within_eq_ok_iff {id : EnvironmentId} {x : Run α} {a : α} :
    within id x m = .ok a m' ↔
      ∃ m₁, x { m with current := id } = .ok a m₁ ∧ m' = { m₁ with current := m.current } := by
  unfold within
  cases x { m with current := id } with
  | ok b m₁ =>
      constructor
      · intro ran
        cases ran
        exact ⟨m₁, rfl, rfl⟩
      · rintro ⟨_, ⟨⟩, rfl⟩
        rfl
  | error halt m₁ =>
      constructor
      · intro ran
        cases ran
      · rintro ⟨_, ⟨⟩, _⟩

/-- A sequence returns where the first of its statements that returns does. -/
theorem sequence_eq_returned_iff {execute : Stmt → Run Flow} {ss : List Stmt} {v : Value} :
    sequence execute ss m = .ok (.returned v) m' ↔
      ∃ before st after m₁, ss = before ++ st :: after ∧
        sequence execute before m = .ok .normal m₁ ∧ execute st m₁ = .ok (.returned v) m' := by
  induction ss generalizing m with
  | nil =>
      constructor
      · intro ran
        cases ran
      · rintro ⟨before, st, after, m₁, split, -⟩
        simp at split
  | cons s ss ih =>
      rw [sequence, bind_eq_ok_iff]
      constructor
      · rintro ⟨flow, m₁, first, rest⟩
        cases flow with
        | normal =>
            obtain ⟨before, st, after, m₂, rfl, normal, returned⟩ := ih.1 rest
            refine ⟨s :: before, st, after, m₂, rfl, ?_, returned⟩
            exact bind_eq_ok_iff.2 ⟨.normal, m₁, first, normal⟩
        | returned w =>
            cases rest
            exact ⟨[], s, ss, m, rfl, rfl, first⟩
      · rintro ⟨before, st, after, m₁, split, normal, returned⟩
        cases before with
        | nil =>
            cases split
            cases normal
            exact ⟨.returned v, m', returned, rfl⟩
        | cons s' before =>
            cases split
            obtain ⟨flow, m₂, first, rest⟩ := bind_eq_ok_iff.1 normal
            cases flow with
            | normal =>
                exact ⟨.normal, m₂, first, ih.2 ⟨before, st, after, m₁, rfl, rest, returned⟩⟩
            | returned w => cases rest

/-- A step that never returns a value. -/
def Passes (x : Run Flow) : Prop := ∀ m flow m', x m = .ok flow m' → flow = .normal

theorem Passes.pure : Passes (pure .normal) := by
  intro m flow m' ran
  cases ran
  rfl

theorem Passes.bind {x : Run α} {f : α → Run Flow} (passes : ∀ a, Passes (f a)) :
    Passes (x >>= f) := by
  intro m flow m' ran
  obtain ⟨a, m₁, -, rest⟩ := bind_eq_ok_iff.1 ran
  exact passes a m₁ flow m' rest

end Run

def Machine.inside (m : Machine) : Machine :=
  { m with
    heap := { m.heap with forest := m.heap.forest.grow (some m.current) }
    current := m.heap.forest.next }

def Machine.called (m : Machine) (f : Function) (arguments : List Value) : Machine :=
  { m with
    heap := { m.heap with
      forest := (m.heap.forest.grow (some f.closure)).defineAll m.heap.forest.next
        ((f.declaration.parameters.map Token.lexeme).zip arguments) }
    current := m.heap.forest.next }

/-- An execution of a statement that is about to start. -/
structure Point where
  fuel : Nat
  statement : Stmt
  machine : Machine

namespace Point

open Run

variable (watch : Node → Run Unit)

def runs (p : Point) : EStateM.Result Halt Machine Flow :=
  executeWatched watch p.fuel p.statement p.machine

/-- An execution starts another one in the same call. -/
inductive Starts : Point → Point → Prop
  | block {fuel m m₁ m₂ body before st after} :
      watch (.stmt (.block body)) m = .ok () m₁ → body = before ++ st :: after →
      sequence (executeWatched watch fuel) before m₁.inside = .ok .normal m₂ →
      Starts ⟨fuel + 1, .block body, m⟩ ⟨fuel, st, m₂⟩
  | consequence {fuel m m₁ m₂ condition st alternative v} :
      watch (.stmt (.branch condition st alternative)) m = .ok () m₁ →
      evaluateWatched watch fuel condition m₁ = .ok v m₂ → v.truthy = true →
      Starts ⟨fuel + 1, .branch condition st alternative, m⟩ ⟨fuel, st, m₂⟩
  | alternative {fuel m m₁ m₂ condition consequence st v} :
      watch (.stmt (.branch condition consequence (some st))) m = .ok () m₁ →
      evaluateWatched watch fuel condition m₁ = .ok v m₂ → v.truthy = false →
      Starts ⟨fuel + 1, .branch condition consequence (some st), m⟩ ⟨fuel, st, m₂⟩
  | body {fuel m m₁ m₂ condition st v} :
      watch (.stmt (.while condition st)) m = .ok () m₁ →
      evaluateWatched watch fuel condition m₁ = .ok v m₂ → v.truthy = true →
      Starts ⟨fuel + 1, .while condition st, m⟩ ⟨fuel, st, m₂⟩
  | again {fuel m m₁ m₂ m₃ condition st v} :
      watch (.stmt (.while condition st)) m = .ok () m₁ →
      evaluateWatched watch fuel condition m₁ = .ok v m₂ → v.truthy = true →
      executeWatched watch fuel st m₂ = .ok .normal m₃ →
      Starts ⟨fuel + 1, .while condition st, m⟩ ⟨fuel, .while condition st, m₃⟩

/-- An execution comes to a `return` of a value in the same call, which leaves the machine as
`m`. -/
def Returns (p : Point) (v : Value) (m : Machine) : Prop :=
  ∃ fuel keyword value before,
    Relation.ReflTransGen (Starts watch) p ⟨fuel, .return keyword value, before⟩ ∧
      runs watch ⟨fuel, .return keyword value, before⟩ = .ok (.returned v) m

variable {watch} {p q : Point} {v : Value} {m : Machine}

/-- An execution in which another one returns does so too, and does nothing more than to leave
environments. -/
theorem Starts.runs_of_returned (starts : Starts watch p q)
    (returned : q.runs watch = .ok (.returned v) m) :
    ∃ id, p.runs watch = .ok (.returned v) { m with current := id } := by
  unfold runs at *
  cases starts with
  | @block fuel m₀ m₁ _ _ _ _ _ watched split normal =>
      have body := sequence_eq_returned_iff.2 ⟨_, _, _, _, split, normal, returned⟩
      have left : (do
          let environment ← newEnvironment (← get).current
          within environment (sequence (executeWatched watch fuel) _)) m₁ = _ :=
        within_eq_ok_iff.2 ⟨_, body, rfl⟩
      exact ⟨m₁.current, bind_eq_ok_iff.2 ⟨_, _, watched, left⟩⟩
  | consequence watched evaluated truthy =>
      refine ⟨m.current, bind_eq_ok_iff.2 ⟨_, _, watched, bind_eq_ok_iff.2 ⟨_, _, evaluated, ?_⟩⟩⟩
      rw [truthy]
      exact returned
  | alternative watched evaluated falsy =>
      refine ⟨m.current, bind_eq_ok_iff.2 ⟨_, _, watched, bind_eq_ok_iff.2 ⟨_, _, evaluated, ?_⟩⟩⟩
      rw [falsy]
      exact returned
  | body watched evaluated truthy =>
      refine ⟨m.current, bind_eq_ok_iff.2 ⟨_, _, watched, bind_eq_ok_iff.2 ⟨_, _, evaluated, ?_⟩⟩⟩
      rw [truthy]
      exact bind_eq_ok_iff.2 ⟨_, _, returned, rfl⟩
  | again watched evaluated truthy round =>
      refine ⟨m.current, bind_eq_ok_iff.2 ⟨_, _, watched, bind_eq_ok_iff.2 ⟨_, _, evaluated, ?_⟩⟩⟩
      rw [truthy]
      exact bind_eq_ok_iff.2 ⟨_, _, round, returned⟩

/-- An execution that returns is one of a `return`, or has started another one that returns. -/
theorem exists_starts_of_returned (returned : p.runs watch = .ok (.returned v) m) :
    (∃ keyword value, p.statement = .return keyword value) ∨
      ∃ q m', Starts watch p q ∧ q.fuel < p.fuel ∧ q.runs watch = .ok (.returned v) m' ∧
        m = { m' with current := m.current } := by
  obtain ⟨fuel, st, m₀⟩ := p
  unfold runs at returned
  cases fuel with
  | zero => cases returned
  | succ fuel =>
      obtain ⟨⟨⟩, m₁, watched, stepped⟩ := bind_eq_ok_iff.1 returned
      -- This is for the statements that can only end normally.
      have passing (passes : Passes (st.step (evaluateWatched watch fuel)
          (executeWatched watch fuel))) : False := by
        cases passes m₁ _ m stepped
      cases st with
      | expression value => exact (passing (.bind fun _ => .pure)).elim
      | print value =>
          exact (passing (.bind fun _ => .bind fun _ => .bind fun _ => .pure)).elim
      | var name value =>
          cases value with
          | none => exact (passing (.bind fun _ => .pure)).elim
          | some value => exact (passing (.bind fun _ => .bind fun _ => .pure)).elim
      | block body =>
          obtain ⟨m₂, body, same⟩ := within_eq_ok_iff.1 stepped
          obtain ⟨before, st, after, m₃, split, normal, returned⟩ :=
            sequence_eq_returned_iff.1 body
          refine .inr ⟨_, m₂, .block watched split normal, Nat.lt_succ_self _, returned, ?_⟩
          rw [same]
      | branch condition consequence alternative =>
          obtain ⟨w, m₂, evaluated, chosen⟩ := bind_eq_ok_iff.1 stepped
          cases truthy : w.truthy with
          | true =>
              rw [truthy] at chosen
              exact .inr ⟨_, m, .consequence watched evaluated truthy, Nat.lt_succ_self _, chosen,
                rfl⟩
          | false =>
              rw [truthy] at chosen
              cases alternative with
              | none => cases chosen
              | some st =>
                  exact .inr ⟨_, m, .alternative watched evaluated truthy, Nat.lt_succ_self _,
                    chosen, rfl⟩
      | «while» condition body =>
          obtain ⟨w, m₂, evaluated, chosen⟩ := bind_eq_ok_iff.1 stepped
          cases truthy : w.truthy with
          | false =>
              rw [truthy] at chosen
              cases chosen
          | true =>
              rw [truthy] at chosen
              obtain ⟨flow, m₃, round, rest⟩ := bind_eq_ok_iff.1 chosen
              cases flow with
              | normal =>
                  exact .inr ⟨_, m, .again watched evaluated truthy round, Nat.lt_succ_self _, rest,
                    rfl⟩
              | returned u =>
                  cases rest
                  exact .inr ⟨_, m, .body watched evaluated truthy, Nat.lt_succ_self _, round, rfl⟩
      | function d => exact (passing (.bind fun _ => .bind fun _ => .bind fun _ => .pure)).elim
      | «return» keyword value => exact .inl ⟨keyword, value, rfl⟩
      | «class» name clause methods =>
          cases clause with
          | none => exact (passing (.bind fun _ => .pure)).elim
          | some clause => exact (passing (.bind fun _ => .bind fun _ => .pure)).elim

/-- A `return` that an execution comes to ends it. -/
theorem runs_of_returns (returns : p.Returns watch v m) :
    ∃ id, p.runs watch = .ok (.returned v) { m with current := id } := by
  obtain ⟨fuel, keyword, value, before, path, returned⟩ := returns
  induction path using Relation.ReflTransGen.head_induction_on with
  | refl => exact ⟨m.current, returned⟩
  | head starts _ ih =>
      obtain ⟨_, returned⟩ := ih
      obtain ⟨id, returned⟩ := starts.runs_of_returned returned
      exact ⟨id, returned⟩

/-- An execution that returns has come to a `return`. -/
theorem returns_of_runs (returned : p.runs watch = .ok (.returned v) m) :
    ∃ m', p.Returns watch v m' ∧ m = { m' with current := m.current } := by
  induction bound : p.fuel using Nat.strongRecOn generalizing p m with
  | ind n ih =>
      rcases exists_starts_of_returned returned with
        ⟨keyword, value, same⟩ | ⟨q, m', starts, less, later, same⟩
      · obtain ⟨fuel, st, before⟩ := p
        obtain rfl : st = .return keyword value := same
        exact ⟨m, ⟨fuel, keyword, value, before, .refl, returned⟩, rfl⟩
      · obtain ⟨m'', ⟨fuel', keyword, value, before, path, ends⟩, same'⟩ :=
          ih q.fuel (bound ▸ less) later rfl
        refine ⟨m'', ⟨fuel', keyword, value, before, .head starts path, ends⟩, ?_⟩
        rw [same, same']

end Point

/-! ### Calls -/

/-- What a call of a function yields when its body ends in a machine. -/
def Function.result (f : Function) (flow : Flow) (m : Machine) : Value :=
  if f.isInitializer then (m.heap.forest.getAt? f.closure 0 receiverName).getD .nil
  else match flow with
    | .normal => .nil
    | .returned v => v

def Function.finish (f : Function) (flow : Flow) : Run Value := do
  if f.isInitializer then
    return ((← get).heap.forest.getAt? f.closure 0 receiverName).getD .nil
  match flow with
  | .normal => return .nil
  | .returned v => return v

theorem Function.finish_eq (f : Function) (flow : Flow) (m : Machine) :
    f.finish flow m = .ok (f.result flow m) m := by
  unfold finish result
  split
  · rfl
  · cases flow <;> rfl

/-- The body of a function comes to its end, or to a `return` in the same call that leaves the
machine as `m'`. -/
inductive Function.Finishes (watch : Node → Run Unit) (fuel : Nat) (f : Function)
    (arguments : List Value) (m : Machine) : Flow → Machine → Prop
  | normal {m'} :
      Run.sequence (executeWatched watch fuel) f.declaration.body (m.called f arguments) =
        .ok .normal m' → Finishes watch fuel f arguments m .normal m'
  | returned {before st after m₁ v m'} : f.declaration.body = before ++ st :: after →
      Run.sequence (executeWatched watch fuel) before (m.called f arguments) = .ok .normal m₁ →
      Point.Returns watch ⟨fuel, st, m₁⟩ v m' →
      Finishes watch fuel f arguments m (.returned v) m'

namespace Run

/-- Entering a function executes its body in a new environment. -/
theorem enter_eq_ok_iff_sequence {execute : Stmt → Run Flow} {f : Function}
    {arguments : List Value} {m m' : Machine} {w : Value} :
    enter execute f arguments m = .ok w m' ↔
      ∃ flow m₁, sequence execute f.declaration.body (m.called f arguments) = .ok flow m₁ ∧
        w = f.result flow m₁ ∧ m' = { m₁ with current := m.current } := by
  have entered : enter execute f arguments m =
      (within m.heap.forest.next (sequence execute f.declaration.body) >>= f.finish)
        { m with heap := (m.called f arguments).heap } := rfl
  rw [entered, bind_eq_ok_iff]
  constructor
  · rintro ⟨flow, m₁, ran, rest⟩
    obtain ⟨m₂, body, rfl⟩ := within_eq_ok_iff.1 ran
    rw [f.finish_eq] at rest
    cases rest
    exact ⟨flow, m₂, body, rfl, rfl⟩
  · rintro ⟨flow, m₁, body, rfl, rfl⟩
    exact ⟨flow, _, within_eq_ok_iff.2 ⟨m₁, body, rfl⟩, f.finish_eq flow _⟩

/-- A call yields what its body returns in the same call, or else `nil`, and an initializer its
receiver.  The machine is as the body left it, but for the environment. -/
theorem enter_eq_ok_iff {watch : Node → Run Unit} {fuel : Nat} {f : Function}
    {arguments : List Value} {m m' : Machine} {w : Value} :
    enter (executeWatched watch fuel) f arguments m = .ok w m' ↔
      ∃ flow m₁, f.Finishes watch fuel arguments m flow m₁ ∧ w = f.result flow m₁ ∧
        m' = { m₁ with current := m.current } := by
  rw [enter_eq_ok_iff_sequence]
  constructor
  · rintro ⟨flow, m₁, body, rfl, rfl⟩
    cases flow with
    | normal => exact ⟨.normal, m₁, .normal body, rfl, rfl⟩
    | returned v =>
        obtain ⟨before, st, after, m₂, split, normal, returned⟩ := sequence_eq_returned_iff.1 body
        obtain ⟨m₃, returns, same⟩ :=
          Point.returns_of_runs (p := ⟨fuel, st, m₂⟩) returned
        refine ⟨.returned v, m₃, .returned split normal returns, ?_, ?_⟩
        · rw [same]
          rfl
        · rw [same]
  · rintro ⟨flow, m₁, finishes, rfl, rfl⟩
    cases finishes with
    | normal body => exact ⟨.normal, m₁, body, rfl, rfl⟩
    | @returned before st after m₂ v _ split normal returns =>
        obtain ⟨id, returned⟩ := Point.runs_of_returns returns
        exact ⟨.returned v, _,
          sequence_eq_returned_iff.2 ⟨_, _, _, _, split, normal, returned⟩, rfl, rfl⟩

end Run

end Lox
