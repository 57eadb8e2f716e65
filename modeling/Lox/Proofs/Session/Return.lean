import Lox.Proofs.Evaluation.Initializer
import Lox.Proofs.Scope.Return
import Lox.Proofs.Session.Super

/-!
# Returns in sessions

No statement of a chunk that is executed returns a value, and a `return` in the body of a function
ends the innermost call and nothing else (`returns_end_calls`).  The value is what the call yields,
unless it runs an initializer: then it yields the receiver.
-/

namespace Lox

/-- A function as it is entered.  If its body comes to a `return`, its call ends there, and yields
the value, or the receiver if the function is an initializer. -/
def Answers (fuel : Nat) (f : Function) (arguments : List Value) (m : Machine) : Prop :=
  ∀ v m₁, f.Finishes Run.unwatched fuel arguments m (.returned v) m₁ →
    ∃ w, Run.enter (execute fuel) f arguments m = .ok w { m₁ with current := m.current } ∧
      (f.isInitializer = false ∧ w = v ∨ ∃ r, f.Initializes m.heap r ∧ w = .object r.object)

/-- If the node is a call of a value, every function that it enters answers. -/
def Node.Answers (n : Node) (m : Machine) : Prop :=
  ∀ callee paren arguments, n = .expr (.call callee paren arguments) →
    ∀ fuel c m₁ given m₂, evaluate fuel callee m = .ok c m₁ →
      Run.evaluateAll (evaluate fuel) arguments m₁ = .ok given m₂ → ∀ otherwise,
        Run.callWith (Run.enterIf (Lox.Answers fuel) otherwise (execute fuel)) c paren given m₂ =
          Run.callValue (execute fuel) c paren given m₂

namespace Account

open Run

variable {s : Account}

theorem answers {f : Function} (calls : discipline.Calls s f) (fuel : Nat)
    (arguments : List Value) : Answers fuel f arguments s.machine := by
  intro v m₁ finishes
  have ran := enter_eq_ok_iff.2 ⟨_, _, finishes, rfl, rfl⟩
  rw [(watched_unwatched fuel).2] at ran
  refine ⟨_, ran, ?_⟩
  cases flagged : f.isInitializer with
  | false =>
      left
      rw [Function.result, flagged]
      exact ⟨rfl, rfl⟩
  | true =>
      right
      obtain ⟨r, initializes⟩ := (isInitializer_iff calls).1 flagged
      obtain ⟨_, -, -, yields⟩ :=
        (enter_initializer calls initializes fuel arguments).exists_of_ok ran
      exact ⟨r, initializes, yields⟩

theorem node_answers {n : Node} (admits : s.Admits n) : n.Answers s.machine := by
  rintro callee paren arguments rfl fuel c m₁ given m₂ first rest otherwise
  obtain ⟨u, rfl⟩ := exists_of_evaluated admits first rest
  exact (Discipline.Beside.same (callWith (s := u) fuel c paren given
    (fun calls _ _ => answers calls fuel given) otherwise)).1

end Account

/-- Whatever chunks a session has run, while it executes another one no statement of the chunk
returns a value.  A call ends where its body comes to a `return` that no function inside it is in
between of, and yields the value, or its receiver if it runs an initializer. -/
theorem returns_end_calls (sink : Sink) (clock : Nat → Float) {fuel : Nat} {earlier : List String}
    {reports : List Report} {s : Session}
    (ran : (Session.initial sink clock).runAll fuel earlier = some (reports, s)) {source : String}
    (clean : (s.chunk source).Clean) :
    (∀ st ∈ (s.chunk source).statements, ∀ fuel m flow m', execute fuel st m = .ok flow m' →
      flow = .normal) ∧
    (∀ watch fuel f arguments m w m',
      Run.enter (executeWatched watch fuel) f arguments m = .ok w m' ↔
        ∃ flow m₁, f.Finishes watch fuel arguments m flow m₁ ∧ w = f.result flow m₁ ∧
          m' = { m₁ with current := m.current }) ∧
    ∀ fuel', Throughout Node.Answers fuel' (s.chunk source).statements
      (s.prepared (s.chunk source)) := by
  refine ⟨fun st member fuel m flow m' executed => ?_, fun _ _ _ _ _ _ _ => Run.enter_eq_ok_iff,
    fun fuel' => ?_⟩
  · rw [← (watched_unwatched fuel).2] at executed
    exact (Stmt.accepted_of_mem clean.2 st member).passes Run.unwatched fuel m flow m' executed
  · exact throughout_of_admitted sink clock ran source Account.node_answers fuel'

/-- A function that returns from a loop in a block, called by an initializer that returns from a
branch. -/
theorem returns_end_calls_nested :
    ∃ reports s, (Session.initial .unlimited fun _ => 0).runAll 20
        ["fun f(n) \x7b while (true) \x7b if (n > 1) return n; n = n + 1; \x7d \x7d"] =
          some (reports, s) ∧
      (s.chunk "class A \x7b init(n) \x7b if (f(n)) return; print n; \x7d \x7d A(0);").Clean ∧
      Throughout Node.Answers 20
        (s.chunk "class A \x7b init(n) \x7b if (f(n)) return; print n; \x7d \x7d A(0);").statements
        (s.prepared
          (s.chunk "class A \x7b init(n) \x7b if (f(n)) return; print n; \x7d \x7d A(0);")) := by
  have accepted : ((Session.initial .unlimited fun _ => 0).runAll 20
      ["fun f(n) \x7b while (true) \x7b if (n > 1) return n; n = n + 1; \x7d \x7d"]).any fun p =>
        decide (p.2.chunk
          "class A \x7b init(n) \x7b if (f(n)) return; print n; \x7d \x7d A(0);").Clean := by
    decide +kernel
  obtain ⟨⟨reports, s⟩, ran, clean⟩ := (Option.any_eq_true _ _).1 accepted
  have clean := of_decide_eq_true clean
  exact ⟨reports, s, ran, clean, (returns_end_calls .unlimited _ ran clean).2.2 20⟩

end Lox
