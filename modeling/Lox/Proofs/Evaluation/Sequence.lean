import Lox.Bind
import Lox.Evaluation

/-!
# Statements one after the other

The statements of a program are executed up to the first that halts.  What follows that one is of
no account (`exists_of_executeAll_error`), and what follows a program that comes to its end goes on
where that has ended (`executeAll_append_of_ok`).
-/

namespace Lox

open Run

variable {fuel : Nat} {ss : List Stmt} {m m' : Machine}

theorem flush_eq (m : Machine) :
    flush m = if m.sink.flushable then .ok () m else .error (.output .flushFailed) m := by
  rw [flush, bind_of_ok (x := get) rfl]
  cases m.sink.flushable <;> rfl

theorem executeAll_append_of_ok (ran : executeAll fuel ss m = .ok () m') (ss' : List Stmt) :
    executeAll fuel (ss ++ ss') m = executeAll fuel ss' m' := by
  induction ss generalizing m with
  | nil =>
      rw [executeAll, flush_eq] at ran
      split at ran <;> cases ran
      rfl
  | cons s ss ih =>
      obtain ⟨flow, t, first, rest⟩ := bind_eq_ok_iff.1 ran
      rw [List.cons_append, executeAll, bind_of_ok first]
      exact ih rest

/-- A program that halts before its end does so in one of its statements, whatever follows it. -/
theorem exists_of_executeAll_error {halt : Halt} (ran : executeAll fuel ss m = .error halt m')
    (early : halt ≠ .output .flushFailed) :
    ∃ before s after, ss = before ++ s :: after ∧
      ∀ rest, executeAll fuel (before ++ s :: rest) m = .error halt m' := by
  induction ss generalizing m with
  | nil =>
      rw [executeAll, flush_eq] at ran
      split at ran <;> cases ran
      exact absurd rfl early
  | cons s ss ih =>
      rcases bind_eq_error_iff.1 ran with first | ⟨flow, t, first, ran'⟩
      · exact ⟨[], s, ss, rfl, fun rest => bind_of_error first⟩
      · obtain ⟨before, s', after, rfl, stays⟩ := ih ran'
        refine ⟨s :: before, s', after, rfl, fun rest => ?_⟩
        rw [List.cons_append, executeAll, bind_of_ok first, stays]

theorem executeAll_append_of_error {halt : Halt} (ran : executeAll fuel ss m = .error halt m')
    (early : halt ≠ .output .flushFailed) (ss' : List Stmt) :
    executeAll fuel (ss ++ ss') m = .error halt m' := by
  obtain ⟨before, s, after, rfl, stays⟩ := exists_of_executeAll_error ran early
  rw [List.append_assoc, List.cons_append, stays]

end Lox
