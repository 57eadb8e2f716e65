import Lox.Proofs.Evaluation.Declaring
import Lox.Proofs.Evaluation.Halting
import Lox.Proofs.Session.Grounded
import Lox.Proofs.Session.Watched

/-!
# Sessions execute what the grammar promises

Every statement that the parser returns is well shaped at every depth, also after errors.  So are
the functions that a session keeps from one chunk to the next, and with them everything that is ever
executed (`grammatical_throughout`).  Two errors of operators are out of reach then, an error about
a superclass names the variable of a superclass clause, and names are declared only where the text
declares them, whatever conditions hold.
-/

namespace Lox

/-- The nodes of the chunks of a session that are executed. -/
def executedNodes (sources : List String) : List Node := (visitsOf 0 sources).map Visit.node

/-- The statements of a chunk are as the grammar promises. -/
theorem Chunk.grammatical (source : String) (firstSite : Site) :
    ∀ n ∈ Stmt.nodesAll (Chunk.read source firstSite).statements, n.Grammatical :=
  parse_grammatical (tokensOf (scan source)) firstSite

/-- A watcher finds nodes of the chunks. -/
theorem Comparison.watches_mem {c : Comparison} {known : List Visit}
    (visited : ∀ r v, c.visited r v → v ∈ known) (otherwise : Run Unit) :
    c.correspondence.Watches (Run.check (fun n _ => n ∈ known.map Visit.node) otherwise)
      Run.unwatched where
  expr := by
    rintro w l e₁ e₂ ⟨r, -, -, pending, S, S', sees, rfl, seen⟩ place m₁ m₂ matched
    have self : (⟨S, pending, .expr e₁⟩ : Visit) ∈ e₁.visits pending S :=
      List.mem_map_of_mem (Expr.self_mem_nodes e₁)
    rw [Run.check, if_pos (List.mem_map_of_mem (visited r _ (seen _ self)))]
    exact .ok (World.le_refl w) matched trivial
  stmt := by
    rintro w l after s₁ s₂ ⟨r, -, -, S, rfl, -, seen⟩ place m₁ m₂ matched
    have self := Stmt.self_mem_visits S s₁
    rw [Run.check, if_pos (List.mem_map_of_mem (visited r _ (seen _ self)))]
    exact .ok (World.le_refl w) matched trivial

namespace Session

variable {s s' : Session} {fuel : Nat} {source : String} {report : Report}

theorem grammatical_prepared (grammatical : s.machine.heap.Grammatical) (chunk : Chunk) :
    (s.prepared chunk).heap.Grammatical := by
  rw [prepared, Machine.recordAll_eq]
  exact grammatical

/-- Whatever becomes of a chunk, the functions of a session are as the grammar promises. -/
theorem grammatical_of_run (grammatical : s.machine.heap.Grammatical)
    (ran : s.run fuel source = some (report, s')) : s'.machine.heap.Grammatical := by
  by_cases clean : (s.chunk source).Clean
  · rw [s.run_of_clean clean] at ran
    rw [machine_of_perform ran]
    exact Declaring.grammatical_leaves (grammatical_prepared grammatical _)
      (Chunk.grammatical source s.nextSite) fuel
  · rw [s.run_of_not_clean clean] at ran
    cases ran
    rw [(s.heap_rejected (s.chunk source)).1]
    exact grammatical

theorem grammatical_of_runAll {sources : List String} {reports : List Report}
    (grammatical : s.machine.heap.Grammatical)
    (ran : s.runAll fuel sources = some (reports, s')) : s'.machine.heap.Grammatical := by
  induction sources generalizing s reports with
  | nil =>
      cases ran
      exact grammatical
  | cons source sources ih =>
      obtain ⟨_, _, _, first, others, -⟩ := exists_of_runAll_cons ran
      exact ih (grammatical_of_run grammatical first) others

/-- The failure that is reported is what the execution halted with. -/
theorem exists_halt_of_run (ran : s.run fuel source = some (report, s')) {d : Diagnostic}
    (failed : report.diagnostics.failure = some d) :
    (s.chunk source).Clean ∧ ∃ halt m, halt.diagnostic? = some d ∧
      executeAll fuel (s.chunk source).statements (s.prepared (s.chunk source)) =
        .error halt m := by
  by_cases clean : (s.chunk source).Clean
  · rw [s.run_of_clean clean, perform] at ran
    refine ⟨clean, ?_⟩
    split at ran
    · cases ran
      cases failed
    · rename_i halt m halted
      obtain ⟨d', told, same⟩ := Option.map_eq_some_iff.1 ran
      cases same
      cases failed
      exact ⟨halt, m, told, halted⟩
  · rw [s.run_of_not_clean clean] at ran
    cases ran
    cases failed

end Session

/-- Whatever the tokens are, every node of what the parser returns is as the grammar promises.  In a
session this holds of every node that is ever evaluated or executed, and what is no declaration
declares nothing in any environment.  So no failure is about an operator that is none, and one about
a superclass that is no class names the variable in a superclass clause. -/
theorem grammatical_throughout :
    (∀ tokens firstSite, ∀ n ∈ Stmt.nodesAll (parse tokens firstSite).statements, n.Grammatical) ∧
    ∀ (sink : Sink) (clock : Nat → Float) (fuel : Nat) (earlier : List String)
      (reports : List Report) (s : Session),
      (Session.initial sink clock).runAll fuel earlier = some (reports, s) →
      ∀ (source : String) (fuel' : Nat),
        ((s.chunk source).Clean → Throughout
          (fun n m => n ∈ executedNodes (earlier ++ [source]) ∧ n.Grammatical ∧
            (n.isPlain → n.KeepsNames m))
          fuel' (s.chunk source).statements (s.prepared (s.chunk source))) ∧
        ∀ report s', s.run fuel' source = some (report, s') →
          ∀ d, report.diagnostics.failure = some d →
            ((∃ e : RuntimeError, d = e.diagnostic ∧
                e.Possible (executedNodes (earlier ++ [source]))) ∨
              ∃ e : OutputError, d = e.diagnostic) ∧
            ∀ operator, d.message ≠ "Invalid unary operator '" ++ operator ++ "'." ∧
              d.message ≠ "Invalid binary operator '" ++ operator ++ "'." := by
  refine ⟨parse_grammatical, ?_⟩
  intro sink clock fuel earlier reports s before source fuel'
  have grammatical : s.machine.heap.Grammatical :=
    Session.grammatical_of_runAll ⟨by simp [Session.initial, Machine.initial, Heap.empty],
      by simp [Session.initial, Machine.initial, Heap.empty]⟩ before
  have throughout (clean : (s.chunk source).Clean) : Throughout
      (fun n m => n ∈ executedNodes (earlier ++ [source]) ∧ n.Grammatical ∧
        (n.isPlain → n.KeepsNames m))
      fuel' (s.chunk source).statements (s.prepared (s.chunk source)) :=
    Declaring.throughout_grammatical (Session.grammatical_prepared grammatical _)
      (Chunk.grammatical source s.nextSite)
      (throughout_of_watches sink clock before clean
        (fun c visited => c.watches_mem visited) fuel')
  refine ⟨throughout, fun report s' ran d failed => ?_⟩
  obtain ⟨clean, halt, m, told, halted⟩ := Session.exists_halt_of_run ran failed
  have possible := halt_possible (fun _ _ held => ⟨held.2.1, held.1⟩) (throughout clean) halted
  cases halt with
  | error e =>
      cases told
      exact ⟨.inl ⟨e, rfl, possible⟩,
        message_ne_of_head? (RuntimeError.head?_message possible.unary possible.binary)⟩
  | output e =>
      cases told
      refine ⟨.inr ⟨e, rfl⟩, message_ne_of_head? ?_⟩
      cases e <;> simp [OutputError.diagnostic, Diagnostic.message, OutputError.message]
  | outOfFuel => cases told

/-- A class that inherits from a number that an earlier chunk has given its name to.  It is declared
in a block of its own, as it must be after a condition. -/
theorem grammatical_throughout_superclass :
    let earlier := ["fun f() \x7b return !-1 == 2; \x7d var A = 1;"]
    let source := "if (f() or true) \x7b class B < A \x7b\x7d \x7d"
    ∃ reports s report s' d, (Session.initial .unlimited fun _ => 0).runAll 20 earlier =
        some (reports, s) ∧
      (s.chunk source).Clean ∧ s.run 20 source = some (report, s') ∧
      report.diagnostics.failure = some d ∧ d.message = "Superclass must be a class." ∧
      Throughout (fun n m => n ∈ executedNodes (earlier ++ [source]) ∧ n.Grammatical ∧
        (n.isPlain → n.KeepsNames m)) 20 (s.chunk source).statements
        (s.prepared (s.chunk source)) ∧
      ((∃ e : RuntimeError, d = e.diagnostic ∧
          e.Possible (executedNodes (earlier ++ [source]))) ∨
        ∃ e : OutputError, d = e.diagnostic) := by
  intro earlier source
  have failed : ((Session.initial .unlimited fun _ => 0).runAll 20 earlier).any fun p =>
      decide (p.2.chunk source).Clean &&
        (p.2.run 20 source).any fun q =>
          q.1.diagnostics.failure.any fun d => d.message == "Superclass must be a class." := by
    decide +kernel
  obtain ⟨⟨reports, s⟩, before, after⟩ := (Option.any_eq_true _ _).1 failed
  obtain ⟨clean, ends⟩ := Bool.and_eq_true_iff.1 after
  obtain ⟨⟨report, s'⟩, ran, told⟩ := (Option.any_eq_true _ _).1 ends
  obtain ⟨d, failure, message⟩ := (Option.any_eq_true _ _).1 told
  have clean := of_decide_eq_true clean
  obtain ⟨throughout, reported⟩ :=
    grammatical_throughout.2 .unlimited _ 20 earlier reports s before source 20
  exact ⟨reports, s, report, s', d, before, clean, ran, failure, beq_iff_eq.1 message,
    throughout clean, (reported report s' ran d failure).1⟩

end Lox
