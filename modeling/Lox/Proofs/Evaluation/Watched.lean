import Lox.Evaluation
import Lox.Proofs.Program.Node

/-!
# Watching an execution

`evaluateWatched` and `executeWatched` evaluate and execute like `evaluate` and `execute`, but take
a step `watch` whenever the evaluation of an expression or the execution of a statement starts, at
any depth of calls, blocks and loops.  They are made from the same `Expr.step` and `Stmt.step`, so
that nothing can start unwatched.

`Throughout P` says of an execution that `P` holds at all of these moments: a check of `P` that
would do anything at all on a failure does not change the execution.
-/

namespace Lox

mutual

/-- Evaluates an expression and watches each node that starts. -/
def evaluateWatched (watch : Node → Run Unit) (fuel : Nat) (e : Expr) : Run Value := fun m =>
  match fuel with
  | 0 => .error .outOfFuel m
  | fuel + 1 =>
    (do
      watch (.expr e)
      e.step (evaluateWatched watch fuel) (executeWatched watch fuel)) m
termination_by structural fuel

def executeWatched (watch : Node → Run Unit) (fuel : Nat) (s : Stmt) : Run Flow := fun m =>
  match fuel with
  | 0 => .error .outOfFuel m
  | fuel + 1 =>
    (do
      watch (.stmt s)
      s.step (evaluateWatched watch fuel) (executeWatched watch fuel)) m
termination_by structural fuel

end

def executeAllWatched (watch : Node → Run Unit) (fuel : Nat) : List Stmt → Run Unit
  | [] => Run.flush
  | s :: ss => do
    let _ ← executeWatched watch fuel s
    executeAllWatched watch fuel ss

/-- The step that does nothing if `P` holds of a node and the machine, and `otherwise` if not. -/
noncomputable def Run.check (P : Node → Machine → Prop) (otherwise : Run Unit) (n : Node) :
    Run Unit := fun m =>
  open Classical in if P n m then .ok () m else otherwise m

/-- `P` holds whenever a node starts while a program is executed. -/
def Throughout (P : Node → Machine → Prop) (fuel : Nat) (statements : List Stmt) (m : Machine) :
    Prop :=
  ∀ otherwise, executeAllWatched (Run.check P otherwise) fuel statements m =
    executeAll fuel statements m

theorem Run.get_bind (k : Machine → Run α) (m : Machine) : (get >>= k) m = k m m := rfl

def Run.unwatched (_ : Node) : Run Unit := pure ()

theorem watched_unwatched (fuel : Nat) :
    evaluateWatched Run.unwatched fuel = evaluate fuel ∧
      executeWatched Run.unwatched fuel = execute fuel := by
  induction fuel with
  | zero => exact ⟨rfl, rfl⟩
  | succ fuel ih =>
      refine ⟨funext fun e => funext fun m => ?_, funext fun s => funext fun m => ?_⟩
      · change e.step (evaluateWatched Run.unwatched fuel) (executeWatched Run.unwatched fuel) m = _
        rw [ih.1, ih.2]
        rfl
      · change s.step (evaluateWatched Run.unwatched fuel) (executeWatched Run.unwatched fuel) m = _
        rw [ih.1, ih.2]
        rfl

theorem executeAllWatched_unwatched (fuel : Nat) (statements : List Stmt) :
    executeAllWatched Run.unwatched fuel statements = executeAll fuel statements := by
  induction statements with
  | nil => rfl
  | cons s ss ih => rw [executeAllWatched, executeAll, ih, (watched_unwatched fuel).2]

theorem throughout_true (fuel : Nat) (statements : List Stmt) (m : Machine) :
    Throughout (fun _ _ => True) fuel statements m := by
  intro otherwise
  have same : Run.check (fun _ _ => True) otherwise = Run.unwatched :=
    funext fun _ => funext fun _ => if_pos trivial
  rw [same, executeAllWatched_unwatched]

end Lox
