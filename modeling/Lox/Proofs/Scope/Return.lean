import Lox.Proofs.Evaluation.Return
import Lox.Proofs.Scope.Visit

/-!
# No return outside functions

The analysis looks at every statement that an execution may start in the same call, in the same
context (`Stmt.Accepted.of_starts`), and reports a `return` where there is no function.  So a
statement of a program without such errors never returns a value (`Stmt.Accepted.passes`), although
functions that are called in it do.
-/

namespace Lox

def Stmt.Accepted (context : Context) (st : Stmt) : Prop :=
  ∃ scopes, scopeErrorsOf (st.findings context scopes).2 = []

theorem Stmt.accepted_of_mem {context : Context} {scopes : Scopes} {ss : List Stmt}
    (errors : scopeErrorsOf (Stmt.findingsAll context scopes ss) = []) :
    ∀ st ∈ ss, st.Accepted context := by
  induction ss generalizing scopes with
  | nil => exact fun _ member => by cases member
  | cons s ss ih =>
      rw [Stmt.findingsAll_cons, scopeErrorsOf_append, List.append_eq_nil_iff] at errors
      exact List.forall_mem_cons.2 ⟨⟨scopes, errors.1⟩, ih errors.2⟩

namespace Stmt.Accepted

variable {context : Context} {watch : Node → Run Unit}

/-- What is started in the same call is looked at in the same context. -/
theorem of_starts {p q : Point} (starts : Point.Starts watch p q)
    (accepted : p.statement.Accepted context) : q.statement.Accepted context := by
  cases starts with
  | block _ split _ =>
      obtain ⟨scopes, errors⟩ := accepted
      exact Stmt.accepted_of_mem errors _ (split ▸ List.mem_append_right _ List.mem_cons_self)
  | @consequence _ _ _ _ condition st alternative _ _ _ _ =>
      obtain ⟨scopes, errors⟩ := accepted
      cases alternative with
      | none =>
          simp only [Stmt.findings, scopeErrorsOf_append, List.append_eq_nil_iff] at errors
          exact ⟨scopes, errors.2⟩
      | some other =>
          simp only [Stmt.findings, scopeErrorsOf_append, List.append_eq_nil_iff] at errors
          exact ⟨scopes, errors.1.2⟩
  | alternative _ _ _ =>
      obtain ⟨scopes, errors⟩ := accepted
      simp only [Stmt.findings, scopeErrorsOf_append, List.append_eq_nil_iff] at errors
      exact ⟨_, errors.2⟩
  | body _ _ _ =>
      obtain ⟨scopes, errors⟩ := accepted
      simp only [Stmt.findings, scopeErrorsOf_append, List.append_eq_nil_iff] at errors
      exact ⟨scopes, errors.2⟩
  | again _ _ _ _ => exact accepted

theorem of_reaches {p q : Point} (path : Relation.ReflTransGen (Point.Starts watch) p q)
    (accepted : p.statement.Accepted context) : q.statement.Accepted context := by
  induction path with
  | refl => exact accepted
  | tail _ starts ih => exact of_starts starts ih

/-- A `return` is accepted only inside a function. -/
theorem function_ne_none {keyword : Token} {value : Option Expr}
    (accepted : (Stmt.return keyword value).Accepted context) : context.function ≠ .none := by
  intro outside
  obtain ⟨scopes, errors⟩ := accepted
  cases value <;> simp [Stmt.findings, findingIf, outside, scopeErrorsOf] at errors

/-- A statement that is accepted outside functions returns no value. -/
theorem passes {st : Stmt} (accepted : st.Accepted .top) (watch : Node → Run Unit) (fuel : Nat) :
    Run.Passes (executeWatched watch fuel st) := by
  intro m flow m' ran
  cases flow with
  | normal => rfl
  | returned v =>
      obtain ⟨_, ⟨fuel', keyword, value, before, path, -⟩, -⟩ :=
        Point.returns_of_runs (p := ⟨fuel, st, m⟩) ran
      exact absurd rfl (of_reaches path accepted).function_ne_none

end Stmt.Accepted

end Lox
