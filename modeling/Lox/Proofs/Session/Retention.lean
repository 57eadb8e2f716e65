import Lox.Proofs.Evaluation.Retention
import Lox.Proofs.Session.Recording
import Lox.Proofs.Session.Run

/-!
# What chunks leave in place

Between two chunks a session is in the environment of the whole program, and that environment loses
no name, whatever becomes of a chunk: it may be rejected, come to its end, or fail inside calls,
blocks or declarations (`scopes_retained`).
-/

namespace Lox

open Run

/-- Recording distances and emptying the sink leave the environments alone. -/
theorem Session.retains_prepared (s : Session) (chunk : Chunk) :
    s.machine.Retains (s.prepared chunk) := by
  rw [prepared, Machine.recordAll_eq]
  exact ⟨rfl, rfl, .refl _⟩

/-- Executing a chunk takes no name away and records no distances. -/
theorem Session.retains_of_perform {fuel : Nat} {ss : List Stmt} {n : Site} {m : Machine}
    {p : Report × Session} (ran : perform fuel ss n m = some p) :
    m.Retains p.2.machine ∧ p.2.machine.distances = m.distances := by
  have kept : m.Retains ((executeAll fuel ss).leaves m) ∧
      ((executeAll fuel ss).leaves m).distances = m.distances :=
    Retention.leaves ((Retention.respected m.distances).ends fuel fun _ _ => trivial)
  rw [leaves] at kept
  rw [perform] at ran
  split at ran
  · rename_i executed
    cases ran
    rwa [executed] at kept
  · rename_i executed
    obtain ⟨d, -, rfl⟩ := Option.map_eq_some_iff.1 ran
    rwa [executed] at kept

/-- Whatever becomes of a chunk, the session is in the same environment afterwards. -/
theorem Session.retains_of_run {s s' : Session} {fuel : Nat} {source : String} {report : Report}
    (ran : s.run fuel source = some (report, s')) : s.machine.Retains s'.machine := by
  by_cases clean : (s.chunk source).Clean
  · rw [s.run_of_clean clean] at ran
    exact (s.retains_prepared (s.chunk source)).trans (retains_of_perform ran).1
  · rw [s.run_of_not_clean clean] at ran
    cases ran
    rw [rejected]
    split
    · exact s.retains_prepared (s.chunk source)
    · exact ⟨rfl, rfl, .refl _⟩

theorem Session.retains_of_runAll {s s' : Session} {fuel : Nat} {sources : List String}
    {reports : List Report} (ran : s.runAll fuel sources = some (reports, s')) :
    s.machine.Retains s'.machine := by
  induction sources generalizing s reports with
  | nil =>
      cases ran
      exact .refl _
  | cons source sources ih =>
      obtain ⟨_, _, _, first, others, -⟩ := exists_of_runAll_cons ran
      exact (retains_of_run first).trans (ih others)

/-- Whatever the program, the heap and the distances are, evaluations, executions and calls end in
the environment in which they started, however they end, and no environment has lost a name.  So a
session is in the environment of the whole program between any two chunks, and every name of the
whole program is still there. -/
theorem scopes_retained (fuel : Nat) :
    (∀ m : Machine,
      (∀ e, m.Retains ((evaluate fuel e).leaves m)) ∧
      (∀ s, m.Retains ((execute fuel s).leaves m)) ∧
      (∀ environment body,
        m.Retains ((within environment (sequence (execute fuel) body)).leaves m)) ∧
      ∀ callee arguments, m.Retains ((invoke (execute fuel) callee arguments).leaves m)) ∧
    ∀ (sink : Sink) (clock : Nat → Float) (earlier : List String) (reports : List Report)
      (s : Session), (Session.initial sink clock).runAll fuel earlier = some (reports, s) →
        ∀ fuel' source report s', s.run fuel' source = some (report, s') →
          s'.machine.current = s'.machine.globals ∧ s'.machine.globals = s.machine.globals ∧
            ∀ name, (s.machine.heap.forest.own? s.machine.globals name).isSome →
              (s'.machine.heap.forest.own? s'.machine.globals name).isSome := by
  refine ⟨fun m => ?_, ?_⟩
  · have law := Retention.respected m.distances
    refine ⟨fun e => ?_, fun s => ?_, fun environment body => ?_, fun callee arguments => ?_⟩
    · exact (Retention.leaves (.of_beside fun alarm => (law.besides alarm fuel).1 trivial)).1
    · exact (Retention.leaves (.of_beside fun alarm => (law.besides alarm fuel).2 trivial)).1
    · exact (Retention.leaves (.of_beside fun alarm =>
        (law.sequence (law.besides alarm fuel).2 fun _ _ => trivial).within)).1
    · exact (Retention.leaves (Retention.invoke fuel callee arguments)).1
  · intro sink clock earlier reports s before fuel' source report s' ran
    have idle : s.machine.current = s.machine.globals := by
      have kept := Session.retains_of_runAll before
      rw [kept.current, kept.globals]
      rfl
    have kept := Session.retains_of_run ran
    refine ⟨by rw [kept.current, kept.globals, idle], kept.globals, fun name held => ?_⟩
    rw [kept.globals]
    exact kept.environments.holds _ name held

/-- A chunk that fails in a function in a block of a method that is called in a block. -/
theorem scopes_retained_failure :
    ∃ reports s report s', (Session.initial .unlimited fun _ => 0).runAll 20
        ["var a; class A \x7b m() \x7b \x7b fun g() \x7b return b; \x7d g(); \x7d \x7d \x7d"] =
          some (reports, s) ∧
      s.run 20 "\x7b A().m(); \x7d" = some (report, s') ∧ report.diagnostics.exitCode = 70 ∧
      s'.machine.current = s'.machine.globals ∧
      (s'.machine.heap.forest.own? s'.machine.globals "a").isSome := by
  have failed : ((Session.initial .unlimited fun _ => 0).runAll 20
      ["var a; class A \x7b m() \x7b \x7b fun g() \x7b return b; \x7d g(); \x7d \x7d \x7d"]).any
      fun p =>
        (p.2.machine.heap.forest.own? p.2.machine.globals "a").isSome &&
          (p.2.run 20 "\x7b A().m(); \x7d").any fun q => q.1.diagnostics.exitCode = 70 := by
    decide +kernel
  obtain ⟨⟨reports, s⟩, before, after⟩ := (Option.any_eq_true _ _).1 failed
  obtain ⟨held, ends⟩ := Bool.and_eq_true_iff.1 after
  obtain ⟨⟨report, s'⟩, ran, code⟩ := (Option.any_eq_true _ _).1 ends
  obtain ⟨current, -, kept⟩ :=
    (scopes_retained 20).2 .unlimited _ _ reports s before 20 _ report s' ran
  exact ⟨reports, s, report, s', before, ran, of_decide_eq_true code, current, kept "a" held⟩

end Lox
