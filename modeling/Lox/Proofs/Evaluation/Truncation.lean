import Lox.Proofs.Evaluation.Congruence
import Lox.Proofs.Evaluation.Retention
import Lox.Proofs.Evaluation.Sequence

/-!
# Executions whose output is cut short

What an execution does is independent of the sink that it prints to, up to the first piece that the
sink rejects.  There it halts, however deep in calls, loops and initializers it is, and whatever it
halts with is what the whole execution ends with.

`executeAllOr rejected` is an execution that does `rejected` in place of halting whenever a piece is
rejected.  So it shows whether that ever happens, and what comes of it.  `Run.Truncates limit x y`
compares such a run on a machine with a limit on the line ends to the run `y` on the same machine
without any limit: either no piece is rejected and both do the same, or the first ends where the
second goes on to print the rejected piece (`truncates_executeAll`).
-/

namespace Lox

def Machine.limited (limit : Nat) (m : Machine) : Machine :=
  { m with sink := { m.sink with limit := some limit } }

namespace Run

/-- Prints a piece of text, and does something else if it is rejected. -/
def writeOr (rejected : Run Unit) (piece : String) : Run Unit := do
  if (← get).sink.accepts piece then modify fun m => { m with sink := m.sink.append piece }
  else rejected

def writeAllOr (rejected : Run Unit) : List String → Run Unit
  | [] => pure ()
  | piece :: rest => do
    writeOr rejected piece
    writeAllOr rejected rest

end Run

open Run

/-- Executes a statement, and does something else for each piece of text that is rejected. -/
def Stmt.stepOr (rejected : Run Unit) (evaluate : Expr → Run Value) (execute : Stmt → Run Flow) :
    Stmt → Run Flow
  | .print value => do
    let v ← evaluate value
    writeAllOr rejected ((← get).heap.pieces v ++ ["\n"])
    return .normal
  | s => s.step evaluate execute

mutual

def evaluateOr (rejected : Run Unit) (fuel : Nat) (e : Expr) : Run Value := fun m =>
  match fuel with
  | 0 => .error .outOfFuel m
  | fuel + 1 => e.step (evaluateOr rejected fuel) (executeOr rejected fuel) m
termination_by structural fuel

def executeOr (rejected : Run Unit) (fuel : Nat) (s : Stmt) : Run Flow := fun m =>
  match fuel with
  | 0 => .error .outOfFuel m
  | fuel + 1 => s.stepOr rejected (evaluateOr rejected fuel) (executeOr rejected fuel) m
termination_by structural fuel

end

def executeAllOr (rejected : Run Unit) (fuel : Nat) : List Stmt → Run Unit
  | [] => flush
  | s :: ss => do
    let _ ← executeOr rejected fuel s
    executeAllOr rejected fuel ss

theorem Stmt.stepOr_of_silent {s : Stmt} (silent : ∀ value, s ≠ .print value)
    (rejected : Run Unit) (evaluate : Expr → Run Value) (execute : Stmt → Run Flow) :
    s.stepOr rejected evaluate execute = s.step evaluate execute := by
  cases s with
  | print value => exact absurd rfl (silent value)
  | _ => rfl

/-! ### Halting at a rejected piece -/

theorem Run.writeAllOr_closed (pieces : List String) :
    writeAllOr (throw (.output .closed)) pieces = writeAll pieces := by
  induction pieces with
  | nil => rfl
  | cons piece pieces ih => rw [writeAllOr, ih]; rfl

theorem Stmt.stepOr_closed (s : Stmt) (evaluate : Expr → Run Value) (execute : Stmt → Run Flow) :
    s.stepOr (throw (.output .closed)) evaluate execute = s.step evaluate execute := by
  cases s with
  | print value => simp only [stepOr, writeAllOr_closed]; rfl
  | _ => rfl

theorem evaluateOr_closed (fuel : Nat) :
    evaluateOr (throw (.output .closed)) fuel = evaluate fuel ∧
      executeOr (throw (.output .closed)) fuel = execute fuel := by
  induction fuel with
  | zero => exact ⟨rfl, rfl⟩
  | succ fuel ih =>
      obtain ⟨he, hx⟩ := ih
      constructor
      · funext e m
        rw [evaluateOr, evaluate, he, hx]
      · funext s m
        rw [executeOr, execute, he, hx, Stmt.stepOr_closed]

/-- An execution halts at the first piece that is rejected. -/
theorem executeAllOr_closed (fuel : Nat) (ss : List Stmt) :
    executeAllOr (throw (.output .closed)) fuel ss = executeAll fuel ss := by
  induction ss with
  | nil => rfl
  | cons s ss ih => rw [executeAllOr, (evaluateOr_closed fuel).2, ih]; rfl

namespace Run

variable {limit : Nat} {α β : Type}

def limited (limit : Nat) : EStateM.Result Halt Machine α → EStateM.Result Halt Machine α
  | .ok a m => .ok a (m.limited limit)
  | .error halt m => .error halt (m.limited limit)

/-- The second sink has the text of the first and what comes after it, and has no limit. -/
structure Prints (s s' : Sink) : Prop where
  unlimited : s'.limit = none
  text : s.text.toList <+: s'.text.toList

/-- If what is done halts on the machine `here`, it is the last thing that is done from `m`. -/
def EndsAt (x : Run Unit → Run α) (m here : Machine) : Prop :=
  ∀ rejected halt m', rejected here = .error halt m' →
    ∃ current, x rejected m = .error halt { m' with current }

/-- The run comes to a machine that rejects the next piece of text, and halting there is the last
thing it does.  That machine has printed less than there is at the end, by this piece at least. -/
def Stops (x : Run Unit → Run α) (m : Machine) (last : Sink) : Prop :=
  ∃ (here : Machine) (piece : String), here.sink.accepts piece = false ∧
    (here.sink.text ++ piece).toList <+: last.text.toList ∧ EndsAt x m here

/-- With a limit, the first run does the same as the second one without, or stops before. -/
def Truncates (limit : Nat) (x : Run Unit → Run α) (y : Run α) : Prop :=
  ∀ m : Machine, m.sink.limit = none → Prints m.sink (y.leaves m).sink ∧
    ((∀ rejected, x rejected (m.limited limit) = limited limit (y m)) ∨
      Stops x (m.limited limit) (y.leaves m).sink)

theorem within_of_ok {x : Run α} {id : EnvironmentId} {m m' : Machine} {a : α}
    (ran : x { m with current := id } = .ok a m') :
    within id x m = .ok a { m' with current := m.current } := by
  unfold Run.within
  rw [ran]

theorem within_of_error {x : Run α} {id : EnvironmentId} {m m' : Machine} {halt : Halt}
    (ran : x { m with current := id } = .error halt m') :
    within id x m = .error halt { m' with current := m.current } := by
  unfold Run.within
  rw [ran]

/-- What halts goes on to do so when more comes after it. -/
theorem EndsAt.bind {x : Run Unit → Run β} {m here : Machine} (h : EndsAt x m here)
    (f : Run Unit → β → Run α) : EndsAt (fun rejected => x rejected >>= f rejected) m here := by
  intro rejected halt m' halts
  obtain ⟨current, ran⟩ := h rejected halt m' halts
  exact ⟨current, bind_of_error ran⟩

theorem EndsAt.after {x : Run Unit → Run β} {m m' here : Machine} {b : β}
    {f : Run Unit → β → Run α} (ran : ∀ rejected, x rejected m = .ok b m')
    (h : EndsAt (fun rejected => f rejected b) m' here) :
    EndsAt (fun rejected => x rejected >>= f rejected) m here := by
  intro rejected halt m₁ halts
  obtain ⟨current, ran'⟩ := h rejected halt m₁ halts
  exact ⟨current, (bind_of_ok (ran rejected)).trans ran'⟩

theorem EndsAt.within {x : Run Unit → Run α} {m here : Machine} {id : EnvironmentId}
    (h : EndsAt x { m with current := id } here) :
    EndsAt (fun rejected => within id (x rejected)) m here := by
  intro rejected halt m' halts
  obtain ⟨current, ran⟩ := h rejected halt m' halts
  have restored := within_of_error ran
  exact ⟨m.current, restored⟩

/-- A run stops where another one does, before anything that comes later. -/
theorem Stops.imp {x : Run Unit → Run β} {x' : Run Unit → Run α} {m m' : Machine} {s s' : Sink}
    (h : Stops x m s) (later : Prints s s')
    (ends : ∀ here, EndsAt x m here → EndsAt x' m' here) : Stops x' m' s' := by
  obtain ⟨here, piece, rejects, before, last⟩ := h
  exact ⟨here, piece, rejects, before.trans later.text, ends here last⟩

theorem Prints.trans {s s' s'' : Sink} (h : Prints s s') (h' : Prints s' s'') : Prints s s'' :=
  ⟨h'.unlimited, h.text.trans h'.text⟩

/-- What an accepting sink has printed. -/
theorem Prints.refl {s : Sink} (unlimited : s.limit = none) : Prints s s :=
  ⟨unlimited, List.prefix_refl _⟩

namespace Truncates

/-- A run that has nothing to do with the sink. -/
theorem blind {x : Run α} (sink : ∀ m, (x.leaves m).sink = m.sink)
    (same : ∀ m : Machine, x (m.limited limit) = limited limit (x m)) :
    Truncates limit (fun _ => x) x := by
  intro m accepting
  rw [sink]
  exact ⟨.refl accepting, .inl fun _ => same m⟩

theorem pure (a : α) : Truncates limit (fun _ => Pure.pure a) (Pure.pure a) :=
  blind (fun _ => rfl) fun _ => rfl

theorem halt (halt : Halt) : Truncates limit (fun _ => (throw halt : Run α)) (throw halt) :=
  blind (fun _ => rfl) fun _ => rfl

theorem small {x : Run α} (h : Small x) : Truncates limit (fun _ => x) x := by
  cases h <;> exact blind (fun _ => rfl) fun _ => rfl

theorem get {f : Run Unit → Machine → Run α} {g : Machine → Run α}
    (same : ∀ rejected m sink, f rejected { m with sink } = f rejected m)
    (h : ∀ m, Truncates limit (fun rejected => f rejected m) (g m)) :
    Truncates limit (fun rejected => MonadState.get >>= f rejected) (MonadState.get >>= g) := by
  intro m accepting
  have read (rejected : Run Unit) :
      (MonadState.get >>= f rejected) (m.limited limit) = f rejected m (m.limited limit) := by
    rw [bind_of_ok (x := MonadState.get) rfl]
    exact congrFun (same rejected m _) _
  obtain ⟨prints, inside⟩ := h m m accepting
  refine ⟨prints, inside.imp (fun agrees rejected => (read rejected).trans (agrees rejected)) ?_⟩
  refine fun stops => stops.imp (.refl prints.unlimited) fun here ends rejected halt m' halts => ?_
  obtain ⟨current, ran⟩ := ends rejected halt m' halts
  exact ⟨current, (read rejected).trans ran⟩

theorem bind {x : Run Unit → Run β} {y : Run β} {f : Run Unit → β → Run α} {g : β → Run α}
    (h : Truncates limit x y) (k : ∀ b, Truncates limit (fun rejected => f rejected b) (g b)) :
    Truncates limit (fun rejected => x rejected >>= f rejected) (y >>= g) := by
  intro m accepting
  obtain ⟨prints, first⟩ := h m accepting
  unfold Run.leaves at prints first ⊢
  cases hy : y m with
  | ok b m' =>
      rw [hy] at prints first
      rw [bind_of_ok hy]
      obtain ⟨prints', next⟩ := k b m' prints.unlimited
      refine ⟨prints.trans prints', ?_⟩
      rcases first with agrees | stops
      · refine next.imp (fun agrees' rejected => ?_) fun stops => ?_
        · exact (bind_of_ok (agrees rejected)).trans (agrees' rejected)
        · exact stops.imp (.refl prints'.unlimited) fun _ ends => ends.after agrees
      · exact .inr (stops.imp prints' fun _ ends => ends.bind f)
  | error halt m' =>
      rw [hy] at prints first
      rw [bind_of_error hy]
      refine ⟨prints, first.imp (fun agrees rejected => ?_) fun stops => ?_⟩
      · exact bind_of_error (agrees rejected)
      · exact stops.imp (.refl prints.unlimited) fun _ ends => ends.bind f

theorem within {x : Run Unit → Run α} {y : Run α} (id : EnvironmentId) (h : Truncates limit x y) :
    Truncates limit (fun rejected => within id (x rejected)) (within id y) := by
  intro m accepting
  obtain ⟨prints, inside⟩ := h { m with current := id } accepting
  unfold Run.leaves at prints inside ⊢
  cases hy : y { m with current := id } with
  | ok a m' =>
      rw [hy] at prints inside
      rw [within_of_ok hy]
      refine ⟨prints, inside.imp (fun agrees rejected => ?_) fun stops => ?_⟩
      · exact within_of_ok (m := m.limited limit) (agrees rejected)
      · exact stops.imp (.refl prints.unlimited) fun _ ends => .within ends
  | error halt m' =>
      rw [hy] at prints inside
      rw [within_of_error hy]
      refine ⟨prints, inside.imp (fun agrees rejected => ?_) fun stops => ?_⟩
      · exact within_of_error (m := m.limited limit) (agrees rejected)
      · exact stops.imp (.refl prints.unlimited) fun _ ends => .within ends

def congruence (limit : Nat) : Congruence (Run Unit) where
  Relates := Truncates limit
  pure := pure
  halt := halt
  small := small
  bind := bind
  get := get
  within := within

theorem write (piece : String) :
    Truncates limit (fun rejected => writeOr rejected piece) (write piece) := by
  intro m accepting
  have printed : Run.write piece m = .ok () { m with sink := m.sink.append piece } := by
    change (if m.sink.accepts piece then modify _ else throw _ : Run Unit) m = _
    rw [if_pos (by simp [Sink.accepts, accepting])]
    rfl
  unfold Run.leaves
  rw [printed]
  refine ⟨⟨accepting, ?_⟩, ?_⟩
  · simp [Sink.append]
  · cases accepts : (m.limited limit).sink.accepts piece with
    | true =>
        refine .inl fun rejected => ?_
        change (if (m.limited limit).sink.accepts piece then modify _ else rejected) _ = _
        rw [if_pos accepts]
        rfl
    | false =>
        refine .inr ⟨m.limited limit, piece, accepts, List.prefix_refl _, ?_⟩
        intro rejected halt m' halts
        refine ⟨m'.current, ?_⟩
        change (if (m.limited limit).sink.accepts piece then modify _ else rejected) _ = _
        rwa [if_neg (by simp [accepts])]

theorem writeAll (pieces : List String) :
    Truncates limit (fun rejected => writeAllOr rejected pieces) (writeAll pieces) := by
  induction pieces with
  | nil => exact pure ()
  | cons piece pieces ih => exact (write piece).bind fun _ => ih

theorem flush : Truncates limit (fun _ => flush) Run.flush := by
  refine blind (fun m => ?_) fun m => ?_
  · rw [Run.leaves, flush_eq]
    cases m.sink.flushable <;> rfl
  · rw [flush_eq, flush_eq, Machine.limited]
    cases m.sink.flushable <;> rfl

theorem executeOr (fuel : Nat) :
    (∀ e, Truncates limit (fun rejected => evaluateOr rejected fuel e) (evaluate fuel e)) ∧
      ∀ s, Truncates limit (fun rejected => executeOr rejected fuel s) (execute fuel s) := by
  induction fuel with
  | zero => exact ⟨fun _ => halt .outOfFuel, fun _ => halt .outOfFuel⟩
  | succ fuel ih =>
      obtain ⟨he, hx⟩ := ih
      have expression := (congruence limit).expression (fun rejected => evaluateOr rejected fuel)
        (fun rejected => Lox.executeOr rejected fuel) he hx
      have statement := (congruence limit).statement (fun rejected => evaluateOr rejected fuel)
        (fun rejected => Lox.executeOr rejected fuel) he hx
      refine ⟨expression, fun s => ?_⟩
      change Truncates limit (fun rejected => s.stepOr rejected (evaluateOr rejected fuel)
        (Lox.executeOr rejected fuel)) (s.step (evaluate fuel) (execute fuel))
      by_cases prints : ∃ value, s = .print value
      · obtain ⟨value, rfl⟩ := prints
        refine (he value).bind fun v => get (fun _ _ _ => rfl) fun m => ?_
        exact (writeAll _).bind fun _ => pure Flow.normal
      · have silent (value : Expr) : s ≠ .print value := fun same => prints ⟨value, same⟩
        simp only [Stmt.stepOr_of_silent silent]
        exact statement s silent

end Truncates

end Run

/-- With a limit on the line ends, an execution does the same as without, or stops before. -/
theorem truncates_executeAll (limit fuel : Nat) (ss : List Stmt) :
    Truncates limit (fun rejected => executeAllOr rejected fuel ss) (executeAll fuel ss) := by
  induction ss with
  | nil => exact .flush
  | cons s ss ih => exact ((Truncates.executeOr fuel).2 s).bind fun _ => ih

end Lox
