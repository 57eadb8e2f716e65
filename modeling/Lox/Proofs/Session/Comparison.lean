import Lox.Proofs.Session.Recording
import Lox.Proofs.Simulation.Relabeled

/-!
# Comparing sessions chunk by chunk

Two sessions that execute corresponding chunks are compared by a `Comparison` that grows: before a
chunk is executed, its distances are recorded, and its visits are added to those that are known
(`Comparison.next`).  What was known before must still be true with the new distances, which it is
because new chunks have new sites.
-/

namespace Lox

namespace Correspondence

variable {R : Correspondence} {w : World} {m₁ m₂ : Machine}

inductive FailureMatch (R : Correspondence) : Diagnostic → Diagnostic → Prop
  | runtime (fault : RuntimeFault) {t₁ t₂ : Token} : R.culprit t₁ t₂ →
      FailureMatch R (RuntimeError.diagnostic ⟨fault, t₁⟩) (RuntimeError.diagnostic ⟨fault, t₂⟩)
  | output (e : OutputError) : FailureMatch R e.diagnostic e.diagnostic

theorem HaltMatch.diagnostic? {h₁ h₂ : Halt} (h : R.HaltMatch h₁ h₂) :
    Option.Rel R.FailureMatch h₁.diagnostic? h₂.diagnostic? := by
  cases h with
  | error fault same => exact .some (.runtime fault same)
  | output e => exact .some (.output e)
  | outOfFuel => exact .none

/-- What two sessions report of programs that stand for each other, and what they are after that. -/
structure PerformMatch (R : Correspondence) (p q : Report × Session) : Prop where
  matched : ∃ w : World, w.At .top ∧ R.Matched w p.2.machine q.2.machine
  output : q.1.output = R.before ++ p.1.output
  static₁ : p.1.diagnostics.static = []
  static₂ : q.1.diagnostics.static = []
  failure : Option.Rel R.FailureMatch p.1.diagnostics.failure q.1.diagnostics.failure

/-- Programs that stand for each other have the same exit code. -/
theorem PerformMatch.exitCode {p q : Report × Session} (h : R.PerformMatch p q) :
    q.1.diagnostics.exitCode = p.1.diagnostics.exitCode := by
  have failure := h.failure
  rw [Diagnostics.exitCode, Diagnostics.exitCode, Diagnostics.hasError, Diagnostics.hasError,
    h.static₁, h.static₂, Diagnostics.hasFailure, Diagnostics.hasFailure]
  generalize p.1.diagnostics.failure = d at failure
  generalize q.1.diagnostics.failure = d' at failure
  cases failure <;> rfl

/-- Corresponding programs are performed alike. -/
theorem perform_match (closed : R.Closed) (fuel : Nat) {ss₁ ss₂ : List Stmt}
    (h : R.Statements .top ss₁ ss₂) (place : w.At .top) (matched : R.Matched w m₁ m₂)
    (n₁ n₂ : Site) :
    Option.Rel R.PerformMatch (Session.perform fuel ss₁ n₁ m₁)
      (Session.perform fuel ss₂ n₂ m₂) := by
  have outcome := Sim.executeAll closed fuel h place _ _ matched
  have text {w' : World} {m₁ m₂ : Machine} (matched : R.Matched w' m₁ m₂) :
      m₂.sink.text = R.before ++ m₁.sink.text := by
    rw [matched.sink]
  rw [Session.perform, Session.perform]
  generalize executeAll fuel ss₁ m₁ = x₁ at outcome
  generalize executeAll fuel ss₂ m₂ = x₂ at outcome
  cases outcome with
  | ok le matched' _ =>
      exact .some ⟨⟨_, place.mono le, matched'⟩, text matched', rfl, rfl, .none⟩
  | @error w' halt₁ halt₂ m₁ m₂ le matched' halts =>
      have messages := halts.diagnostic?
      dsimp only
      generalize halt₁.diagnostic? = o₁ at messages
      generalize halt₂.diagnostic? = o₂ at messages
      cases messages with
      | none => exact .none
      | some same =>
          exact .some ⟨⟨_, place.mono le, matched'⟩, text matched', rfl, rfl, .some same⟩

/-- Machines that have executed nothing are matched. -/
theorem matched_initial (R : Correspondence) (one : R.admits 1) (before : R.before = "")
    (sink : Sink) (clock : Nat → Float) :
    ∃ w : World, w.At .top ∧ R.Matched w
      { Machine.initial sink clock with distances := R.first }
      { Machine.initial sink clock with distances := R.second } := by
  let m := Machine.initial sink clock
  refine ⟨⟨m.heap.forest, fun _ => 1, m.globals, m.current⟩, rfl, ?_⟩
  exact {
    sound := ⟨rfl, rfl, Nat.zero_lt_one, fun _ => one⟩
    forest₁ := rfl
    forest₂ := (Forest.rename_one _ _ fun _ => rfl).symm
    functions := .nil
    classes := .nil
    objects := rfl
    natives := rfl
    globals₁ := rfl
    globals₂ := rfl
    current₁ := rfl
    current₂ := rfl
    distances₁ := rfl
    distances₂ := rfl
    sink := by simp [before, Machine.initial]
    clock := rfl
    readings := rfl }

end Correspondence

namespace Comparison

def start (culprit : Token → Token → Prop) : Comparison where
  first := ∅
  second := ∅
  before := ""
  culprit := culprit
  relabels _ := False
  faithful _ h := h.elim
  visited _ _ := False
  recorded _ _ h := h.elim

/-- The comparison after the distances of more visits were recorded. -/
def next (c : Comparison) (first second : Std.TreeMap Site Nat) (before : String)
    (r : Relabeling) (faithful : r.Faithful) (vs : List Visit)
    (old : ∀ r' v, c.visited r' v → v.Recorded first second c.culprit r')
    (new : ∀ v ∈ vs, v.Recorded first second c.culprit r) : Comparison where
  first := first
  second := second
  before := before
  culprit := c.culprit
  relabels r' := c.relabels r' ∨ r' = r
  faithful r' h := h.elim (c.faithful r') fun h => h ▸ faithful
  visited r' v := c.visited r' v ∨ r' = r ∧ v ∈ vs
  recorded r' v h := h.elim (old r' v) fun h => h.1 ▸ new v h.2

variable {c : Comparison} {w : World} {m₁ m₂ : Machine}

/-- Phrases that correspond in a comparison still do when more is known. -/
theorem matched_of_visited (c' : Comparison) (relabels : ∀ r, c.relabels r → c'.relabels r)
    (visited : ∀ r v, c.visited r v → c'.visited r v)
    (h : c.correspondence.Matched w m₁ m₂) (sink₁ sink₂ : Sink)
    (sink : sink₂ = { sink₁ with text := c'.before ++ sink₁.text }) :
    c'.correspondence.Matched w { m₁ with distances := c'.first, sink := sink₁ }
      { m₂ with distances := c'.second, sink := sink₂ } where
  sound := ⟨h.sound.root, h.sound.globals, h.sound.made, h.sound.admits⟩
  forest₁ := h.forest₁
  forest₂ := h.forest₂
  functions := h.functions.imp fun _ _ f =>
    let ⟨l, chain, r, hr, hd, S, hS, known⟩ := f.declaration
    ⟨f.closure, f.isInitializer, l, chain, r, relabels r hr, hd, S, hS,
      fun v hv => visited r v (known v hv)⟩
  classes := h.classes.imp fun _ _ k => ⟨k.name, k.superclass, k.methods.imp fun _ _ p =>
    let ⟨l, chain, r, hr, hd, S, hS, known⟩ := p.2.declaration
    ⟨p.1, p.2.closure, p.2.isInitializer, l, chain, r, relabels r hr, hd, S, hS,
      fun v hv => visited r v (known v hv)⟩⟩
  objects := h.objects
  natives := h.natives
  globals₁ := h.globals₁
  globals₂ := h.globals₂
  current₁ := h.current₁
  current₂ := h.current₂
  distances₁ := rfl
  distances₂ := rfl
  sink := sink
  clock := h.clock
  readings := h.readings

/-- Machines that have executed nothing are matched. -/
theorem matched_initial (culprit : Token → Token → Prop) (sink : Sink) (clock : Nat → Float) :
    ∃ w : World, w.At .top ∧ (start culprit).correspondence.Matched w
      (Machine.initial sink clock) (Machine.initial sink clock) :=
  (start culprit).correspondence.matched_initial rfl rfl sink clock

/-- The statements of a chunk correspond to their relabeled copies. -/
theorem statements_of_chunk {r : Relabeling} (h : c.relabels r) {ss : List Stmt}
    (visited : ∀ v ∈ visits ss, c.visited r v) :
    c.correspondence.Statements .top ss (Stmt.relabelAll r ss) :=
  statements_of_visits h visited

end Comparison

end Lox
