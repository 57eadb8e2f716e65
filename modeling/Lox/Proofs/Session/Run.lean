import Lox.Session
import Lox.Proofs.Token.Scan
import Lox.Proofs.Grammar.Relabel
import Lox.Proofs.Scope.Relabel

/-!
# Runs of a session

A chunk runs in one of three ways: it is rejected for its spelling or grammar, rejected for its
names and scopes, or executed.  Only the third one does more to the machine than to record distances
and to empty the sink.

Chunks are read with the first free site of the session.  With another first site the same text
gives the same chunk up to the numbers of its sites (`Chunk.read_shift`).
-/

namespace Lox

/-- Sites are moved on, and tokens stay. -/
def Relabeling.shift (k : Nat) : Relabeling := ⟨(· + k), id⟩

namespace Relabeling

@[simp] theorem shift_zero : shift 0 = same := rfl

theorem shift_shifts (k : Nat) : (shift k).Shifts where
  kind _ := rfl
  lexeme _ := rfl
  succ site := Nat.add_right_comm site 1 k

end Relabeling

@[simp] theorem GrammarError.relabel_shift (k : Nat) (e : GrammarError) :
    e.relabel (.shift k) = e := rfl

@[simp] theorem ScopeError.map_relabel_shift (k : Nat) (errors : List ScopeError) :
    errors.map (ScopeError.relabel (.shift k)) = errors :=
  List.map_id errors

@[simp] theorem Binding.map_relabel_same (bs : List Binding) :
    bs.map (Binding.relabel .same) = bs :=
  List.map_id bs

namespace Chunk

/-- A chunk without static errors. -/
def Clean (chunk : Chunk) : Prop :=
  chunk.errors = [] ∧ scopeErrorsOf (analyze chunk.statements) = []

instance (chunk : Chunk) : Decidable chunk.Clean := inferInstanceAs (Decidable (_ ∧ _))

def shift (k : Nat) (chunk : Chunk) : Chunk :=
  ⟨Stmt.relabelAll (.shift k) chunk.statements, chunk.errors, chunk.nextSite + k⟩

@[simp] theorem errors_shift (k : Nat) (chunk : Chunk) :
    (chunk.shift k).errors = chunk.errors := rfl

theorem read_shift (source : String) (firstSite : Site) (k : Nat) :
    Chunk.read source (firstSite + k) = (Chunk.read source firstSite).shift k := by
  have parsed := parse_relabel (Relabeling.shift_shifts k) (exists_eof_mem_scan source) firstSite
  have tokens : (tokensOf (scan source)).map (Relabeling.shift k).token = tokensOf (scan source) :=
    List.map_id _
  rw [tokens] at parsed
  change parse _ (firstSite + k) = _ at parsed
  rw [Chunk.read, Chunk.read, parsed]
  simp only [shift, Parsed.relabel, List.map_map, Function.comp_def, GrammarError.relabel_shift]
  rfl

theorem analyze_shift (k : Nat) (chunk : Chunk) :
    analyze (chunk.shift k).statements =
      (analyze chunk.statements).map (Finding.relabel (.shift k)) :=
  analyze_relabel (Relabeling.shift_shifts k).toFaithful chunk.statements

theorem scopeErrorsOf_shift (k : Nat) (chunk : Chunk) :
    scopeErrorsOf (analyze (chunk.shift k).statements) =
      scopeErrorsOf (analyze chunk.statements) := by
  rw [analyze_shift, scopeErrorsOf_map_relabel, ScopeError.map_relabel_shift]

theorem clean_shift (k : Nat) (chunk : Chunk) : (chunk.shift k).Clean ↔ chunk.Clean := by
  rw [Clean, Clean, scopeErrorsOf_shift]
  exact Iff.rfl

def readAll (firstSite : Site) : List String → List Chunk
  | [] => []
  | source :: rest =>
    let chunk := Chunk.read source firstSite
    chunk :: readAll chunk.nextSite rest

@[simp] theorem shift_zero (chunk : Chunk) : chunk.shift 0 = chunk := by
  rw [shift, Relabeling.shift_zero, Stmt.relabelAll_same]
  rfl

/-- The static errors of a chunk.  Names and scopes count if spelling and grammar are right. -/
def staticErrors (chunk : Chunk) : List Diagnostic :=
  if chunk.errors = [] then
    (scopeErrorsOf (analyze chunk.statements)).map ScopeError.diagnostic
  else chunk.errors

theorem staticErrors_eq_nil {chunk : Chunk} : chunk.staticErrors = [] ↔ chunk.Clean := by
  rw [staticErrors, Clean]
  split <;> simp_all

theorem staticErrors_shift (k : Nat) (chunk : Chunk) :
    (chunk.shift k).staticErrors = chunk.staticErrors := by
  rw [staticErrors, staticErrors, scopeErrorsOf_shift]
  rfl

end Chunk

namespace Session

variable {fuel : Nat}

def chunk (s : Session) (source : String) : Chunk := Chunk.read source s.nextSite

def prepared (s : Session) (chunk : Chunk) : Machine :=
  s.machine.emptied.recordAll (bindingsOf (analyze chunk.statements))

def rejected (s : Session) (chunk : Chunk) : Session :=
  ⟨if chunk.errors = [] then s.prepared chunk else s.machine.emptied, chunk.nextSite⟩

/-- A chunk without static errors is executed. -/
theorem run_of_clean (s : Session) {source : String} (clean : (s.chunk source).Clean) :
    s.run fuel source = perform fuel (s.chunk source).statements (s.chunk source).nextSite
      (s.prepared (s.chunk source)) := by
  obtain ⟨errors, scopeErrors⟩ := clean
  unfold chunk at errors scopeErrors
  simp [run, errors, scopeErrors, chunk, prepared]

/-- A chunk with static errors is only reported. -/
theorem run_of_not_clean (s : Session) {source : String} (faulty : ¬ (s.chunk source).Clean) :
    s.run fuel source =
      some (⟨"", ⟨(s.chunk source).staticErrors, none⟩⟩, s.rejected (s.chunk source)) := by
  rw [← Chunk.staticErrors_eq_nil] at faulty
  unfold Chunk.staticErrors chunk at *
  by_cases errors : (Chunk.read source s.nextSite).errors = []
  · rw [if_pos errors] at faulty ⊢
    cases scoping : scopeErrorsOf (analyze (Chunk.read source s.nextSite).statements) with
    | nil => simp [scoping] at faulty
    | cons e es => simp [run, errors, scoping, rejected, prepared]
  · simp [run, errors, rejected]

theorem nextSite_of_perform {ss : List Stmt} {n : Site} {m : Machine} {p : Report × Session}
    (ran : perform fuel ss n m = some p) : p.2.nextSite = n := by
  rw [perform] at ran
  split at ran
  · cases ran
    rfl
  · obtain ⟨d, -, rfl⟩ := Option.map_eq_some_iff.1 ran
    rfl

/-- Reading a chunk uses up sites, whatever comes of it. -/
theorem nextSite_of_run {s s' : Session} {source : String} {report : Report}
    (ran : s.run fuel source = some (report, s')) : s'.nextSite = (s.chunk source).nextSite := by
  by_cases clean : (s.chunk source).Clean
  · rw [run_of_clean s clean] at ran
    exact nextSite_of_perform ran
  · rw [run_of_not_clean s clean] at ran
    cases ran
    rfl

theorem runAll_cons (source : String) (rest : List String) (s : Session) :
    s.runAll fuel (source :: rest) =
      (s.run fuel source).bind fun (report, s') =>
        (s'.runAll fuel rest).map fun (reports, s'') => (report :: reports, s'') := by
  rw [runAll]
  cases s.run fuel source with
  | none => rfl
  | some p =>
      cases h : p.2.runAll fuel rest <;> simp [h]

/-- A session that has run some chunks has run the first one, and the others from where it left. -/
theorem exists_of_runAll_cons {s s' : Session} {source : String} {rest : List String}
    {reports : List Report} (ran : s.runAll fuel (source :: rest) = some (reports, s')) :
    ∃ report next reports', s.run fuel source = some (report, next) ∧
      next.runAll fuel rest = some (reports', s') ∧ reports = report :: reports' := by
  rw [runAll_cons] at ran
  obtain ⟨⟨report, next⟩, first, later⟩ := Option.bind_eq_some_iff.1 ran
  obtain ⟨⟨reports', _⟩, others, same⟩ := Option.map_eq_some_iff.1 later
  cases same
  exact ⟨report, next, reports', first, others, rfl⟩

/-- The chunks after some are read with the sites that these leave. -/
theorem readAll_append_of_runAll {s s' : Session} {sources : List String} {reports : List Report}
    (ran : s.runAll fuel sources = some (reports, s')) (rest : List String) :
    Chunk.readAll s.nextSite (sources ++ rest) =
      Chunk.readAll s.nextSite sources ++ Chunk.readAll s'.nextSite rest := by
  induction sources generalizing s reports with
  | nil =>
      cases ran
      rfl
  | cons source sources ih =>
      obtain ⟨_, _, _, first, others, -⟩ := exists_of_runAll_cons ran
      have tail := ih others
      rw [nextSite_of_run first] at tail
      rw [List.cons_append, Chunk.readAll, Chunk.readAll, List.cons_append]
      exact congrArg _ tail

theorem runAll_append (sources rest : List String) (s : Session) :
    s.runAll fuel (sources ++ rest) =
      (s.runAll fuel sources).bind fun (reports, s') =>
        (s'.runAll fuel rest).map fun (reports', s'') => (reports ++ reports', s'') := by
  induction sources generalizing s with
  | nil =>
      rw [List.nil_append, runAll, Option.bind_some]
      cases h : s.runAll fuel rest <;> simp [h]
  | cons source sources ih =>
      rw [List.cons_append, runAll_cons, runAll_cons]
      cases s.run fuel source with
      | none => rfl
      | some p =>
          simp only [Option.bind_some, ih]
          cases p.2.runAll fuel sources with
          | none => rfl
          | some q =>
              simp only [Option.bind_some, Option.map_some]
              cases q.2.runAll fuel rest <;> simp

end Session

end Lox
