import Lox.Proofs.Evaluation.Foresight
import Lox.Proofs.Evaluation.Grounding
import Lox.Proofs.Session.Super

/-!
# Sessions stay grounded

Whatever chunks a session runs and whatever becomes of them, the heap is grounded between any two of
them and whenever an expression or a statement starts, and what its places were made with never
changes (`exists_heap_always_founded`).
-/

namespace Lox

open Run

/-- A machine with a grounded heap, in an environment of that heap. -/
structure Machine.Founded (m : Machine) : Prop where
  grounded : m.Grounded
  current : m.heap.Made (.environment m.current)
  searchable : m.heap.Searchable

/-- If the node is an expression, its value refers to what is there. -/
def Node.Yields (n : Node) (m : Machine) : Prop :=
  ∀ e, n = .expr e → ∀ fuel v m', evaluate fuel e m = .ok v m' → v.In m'.heap.Made

/-- `Q` holds between any two chunks of a session, and `P` whenever a node starts while one of them
is executed. -/
def Session.Always (Q : Machine → Prop) (P : Node → Machine → Prop) (fuel : Nat) :
    List String → Session → Prop
  | [], s => Q s.machine
  | source :: sources, s =>
    Q s.machine ∧
      ((s.chunk source).Clean →
        Throughout P fuel (s.chunk source).statements (s.prepared (s.chunk source))) ∧
      ∀ report s', s.run fuel source = some (report, s') → Always Q P fuel sources s'

theorem Machine.Founded.of_grounded {m : Machine} (grounded : m.Grounded)
    (current : m.heap.Made (.environment m.current)) : m.Founded :=
  ⟨grounded, current, grounded.1.searchable⟩

theorem Machine.Founded.of_heap {m m' : Machine} (founded : m.Founded) (heap : m'.heap = m.heap)
    (globals : m'.globals = m.globals) (current : m'.current = m.current) : m'.Founded := by
  refine .of_grounded ?_ ?_
  · rw [Machine.Grounded, heap, globals]
    exact founded.grounded
  · rw [heap, current]
    exact founded.current

/-- The first environment refers to nothing. -/
theorem Heap.grounded_first (natives : Array String) :
    Heap.Grounded { Heap.empty with forest := Forest.empty.grow none, natives } := by
  have root (e outer : EnvironmentId) :
      (Forest.empty.grow none).enclosing? e ≠ some outer := by
    intro encloses
    obtain ⟨c, found, encloses⟩ := Option.bind_eq_some_iff.1 encloses
    rw [Forest.environment?_first found] at encloses
    cases encloses
  constructor
  · intro p q link
    cases link with
    | enclosing encloses => exact absurd encloses (root _ _)
    | binding own _ =>
        obtain ⟨c, found, own⟩ := Option.bind_eq_some_iff.1 own
        rw [Forest.environment?_first found] at own
        cases own
    | closure found => simp [Heap.empty] at found
    | superclass found _ => simp [Heap.empty] at found
    | method found _ => simp [Heap.empty] at found
    | classOf found => simp [Heap.empty] at found
    | field found _ _ => simp [Heap.empty] at found
  · exact fun encloses => absurd encloses (root _ _)
  · intro id above c found
    simp [Heap.empty] at found

/-- A machine starts with a grounded heap. -/
theorem Machine.founded_initial (sink : Sink) (clock : Nat → Float) :
    (Machine.initial sink clock).Founded := by
  have grounded : (Machine.initial sink clock).heap.Grounded :=
    (Heap.grounded_first #[clockName]).define Forest.empty.next clockName (.plain rfl)
  exact .of_grounded ⟨grounded, Nat.zero_lt_one⟩ Nat.zero_lt_one

namespace Grounding

/-- Evaluations yield values that refer to what is there. -/
theorem yields {s : { m : Machine // m.Grounded }} {n : Node} (admits : discipline.Admits s n) :
    n.Yields s.1 := by
  rintro e - fuel v m' evaluated
  have kept : discipline.Keeps s (evaluate fuel e) fun t v => v.In t.1.heap.Made :=
    .of_beside fun alarm => (tracked.besides alarm fuel).1 (e := e) admits
  obtain ⟨t, rfl, -, made⟩ := kept.exists_of_ok evaluated
  exact made

/-- Any statements may start on a machine with a grounded heap. -/
theorem admits_founded {m : Machine} (founded : m.Founded) (ss : List Stmt) :
    ∀ st ∈ ss, discipline.Admits ⟨m, founded.grounded⟩ (.stmt st) :=
  fun _ _ => founded.current

/-- What an execution leaves behind is grounded. -/
theorem founded_leaves {m : Machine} (founded : m.Founded) (fuel : Nat) (ss : List Stmt) :
    ((executeAll fuel ss).leaves m).Founded := by
  have ends := tracked.ends fuel (admits_founded founded ss)
  change discipline.Ends _ _ (executeAll fuel ss m) at ends
  rw [Run.leaves]
  generalize executeAll fuel ss m = r at ends
  cases ends with
  | @ok t _ later _ =>
      exact .of_grounded t.2 (admits_later later founded.current)
  | @error t halt later =>
      exact .of_grounded t.2 (admits_later later founded.current)

/-- While statements are executed on a machine with a grounded heap, it stays one, and whatever
extends the heap at the end extends that at every moment. -/
theorem throughout_founded {m : Machine} (founded : m.Founded) {fuel : Nat} {ss : List Stmt}
    {last : Heap} (reaches : ((executeAll fuel ss).leaves m).heap.Extends last) :
    Throughout (fun n m' => m'.Founded ∧ m'.heap.Extends last ∧ n.Yields m') fuel ss m := by
  apply tracked.throughout _ (admits_founded founded ss) (foresees_throughout reaches).2
  intro s n admits reached
  exact ⟨.of_grounded s.2 admits, reached, yields admits⟩

end Grounding

theorem Machine.Founded.prepared {s : Session} (founded : s.machine.Founded) (chunk : Chunk) :
    (s.prepared chunk).Founded := by
  rw [Session.prepared, Machine.recordAll_eq]
  exact founded.of_heap rfl rfl rfl

/-- Rejecting a chunk leaves the heap as it is. -/
theorem Session.heap_rejected (s : Session) (chunk : Chunk) :
    (s.rejected chunk).machine.heap = s.machine.heap ∧
      (s.rejected chunk).machine.globals = s.machine.globals ∧
      (s.rejected chunk).machine.current = s.machine.current := by
  rw [Session.rejected, Session.prepared, Machine.recordAll_eq]
  split <;> exact ⟨rfl, rfl, rfl⟩

theorem Session.machine_of_perform {fuel : Nat} {ss : List Stmt} {n : Site} {m : Machine}
    {p : Report × Session} (ran : perform fuel ss n m = some p) :
    p.2.machine = (executeAll fuel ss).leaves m := by
  rw [perform] at ran
  rw [Run.leaves]
  split at ran
  · rename_i executed
    cases ran
    rw [executed]
  · rename_i executed
    obtain ⟨d, -, rfl⟩ := Option.map_eq_some_iff.1 ran
    rw [executed]

/-- A session on a grounded heap, with a heap that extends all that it comes to. -/
theorem Session.exists_heap_always {s : Session} (founded : s.machine.Founded) (fuel : Nat)
    (sources : List String) :
    ∃ last : Heap, s.machine.heap.Extends last ∧
      s.Always (fun m => m.Founded ∧ m.heap.Extends last)
        (fun n m => m.Founded ∧ m.heap.Extends last ∧ n.Yields m) fuel sources := by
  induction sources generalizing s with
  | nil => exact ⟨s.machine.heap, .refl _, founded, .refl _⟩
  | cons source sources ih =>
      by_cases clean : (s.chunk source).Clean
      · have prepared := founded.prepared (s.chunk source)
        have same : (s.prepared (s.chunk source)).heap = s.machine.heap := by
          rw [Session.prepared, Machine.recordAll_eq]
          rfl
        suffices ∃ last : Heap,
            ((executeAll fuel (s.chunk source).statements).leaves
              (s.prepared (s.chunk source))).heap.Extends last ∧
            ∀ report s', s.run fuel source = some (report, s') →
              s'.Always (fun m => m.Founded ∧ m.heap.Extends last)
                (fun n m => m.Founded ∧ m.heap.Extends last ∧ n.Yields m) fuel sources by
          obtain ⟨last, reaches, later⟩ := this
          have ext := (foresees_throughout reaches).1
          rw [same] at ext
          exact ⟨last, ext, ⟨founded, ext⟩,
            fun _ => Grounding.throughout_founded prepared reaches, later⟩
        have left := Grounding.founded_leaves prepared fuel (s.chunk source).statements
        rw [s.run_of_clean clean]
        cases ran : perform fuel (s.chunk source).statements (s.chunk source).nextSite
          (s.prepared (s.chunk source)) with
        | none => exact ⟨_, .refl _, fun _ _ h => by cases h⟩
        | some p =>
            have machine := machine_of_perform ran
            obtain ⟨last, reaches, later⟩ := ih (s := p.2) (machine ▸ left)
            exact ⟨last, machine ▸ reaches, fun _ _ h => by cases h; exact later⟩
      · obtain ⟨heap, globals, current⟩ := s.heap_rejected (s.chunk source)
        obtain ⟨last, ext, later⟩ :=
          ih (s := s.rejected (s.chunk source)) (founded.of_heap heap globals current)
        rw [heap] at ext
        refine ⟨last, ext, ⟨founded, ext⟩, fun h => absurd h clean, fun report s' ran => ?_⟩
        rw [s.run_of_not_clean clean] at ran
        cases ran
        exact later

/-- In every session, between any two chunks and at every moment of their execution, the heap is
grounded: links lead to what is there, from environments and classes to older ones, and the searches
along them end.  What an environment is enclosed by, what a function is closed over, what a class
inherits and what class an object is of is the same in all these heaps. -/
theorem exists_heap_always_founded (sink : Sink) (clock : Nat → Float) (fuel : Nat)
    (sources : List String) :
    ∃ last : Heap,
      (Session.initial sink clock).Always (fun m => m.Founded ∧ m.heap.Extends last)
        (fun n m => m.Founded ∧ m.heap.Extends last ∧ n.Yields m) fuel sources :=
  (Session.exists_heap_always (Machine.founded_initial sink clock) fuel sources).imp
    fun _ => And.right

end Lox
