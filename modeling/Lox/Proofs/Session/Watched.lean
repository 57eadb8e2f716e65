import Lox.Proofs.Session.Agreement

/-!
# Watching a session

A session that has run some chunks is compared with itself while it executes another one.  Whatever
a watcher finds at every moment at which the two are matched holds throughout the execution.
-/

namespace Lox

/-- What comparisons of a session with itself watch for holds throughout the execution of a
chunk. -/
theorem throughout_of_watches (sink : Sink) (clock : Nat → Float) {fuel : Nat}
    {earlier : List String} {reports : List Report} {s : Session}
    (ran : (Session.initial sink clock).runAll fuel earlier = some (reports, s)) {source : String}
    (clean : (s.chunk source).Clean) {P : Node → Machine → Prop}
    (watches : ∀ c : Comparison, (∀ r v, c.visited r v → v ∈ visitsOf 0 (earlier ++ [source])) →
      ∀ otherwise, c.correspondence.Watches (Run.check P otherwise) Run.unwatched) (fuel' : Nat) :
    Throughout P fuel' (s.chunk source).statements (s.prepared (s.chunk source)) := by
  intro otherwise
  have itself := (Alike.initial sink clock).runAll fuel earlier
  rw [ran] at itself
  rcases itself with ⟨stuck, -⟩ | ⟨_, _, _, c, h₁, h₂, alike⟩
  · cases stuck
  cases h₁
  cases h₂
  have numbered : Numbered s.nextSite (s.chunk source).nextSite (s.chunk source).statements :=
    Chunk.numbered source s.nextSite
  obtain ⟨c', relabels, visited, alike'⟩ := alike.record numbered
  obtain ⟨w, place, matched⟩ := alike'.matched
  rw [Chunk.shift_zero, Alike.prepared_emptied] at matched
  have same : ∀ r, c'.relabels r → r = .same := fun r hr => (alike'.relabels r hr).elim id id
  have distances : c'.second = c'.first := matched.distances₂.symm.trans matched.distances₁
  have known (r : Relabeling) (v : Visit) (hv : c'.visited r v) :
      v ∈ visitsOf 0 (earlier ++ [source]) := by
    have split := Session.readAll_append_of_runAll ran [source]
    rw [visitsOf, show (0 : Site) = (Session.initial sink clock).nextSite from rfl, split]
    simpa [Chunk.readAll, Session.chunk] using alike'.visited r v hv
  have statements : c'.correspondence.Statements .top (s.chunk source).statements
      (s.chunk source).statements := by
    have relabeled : c'.correspondence.Statements .top (s.chunk source).statements
        (Stmt.relabelAll (.shift 0) (s.chunk source).statements) := by
      apply Comparison.statements_of_chunk relabels
      intro v hv
      exact visited v (by rwa [Chunk.visits, if_pos clean])
    rwa [same _ relabels, Stmt.relabelAll_same] at relabeled
  have outcome := Correspondence.Sim.executeAllWatched c'.closed (watches c' known otherwise) fuel'
    statements place _ _ matched
  rw [executeAllWatched_unwatched] at outcome
  generalize executeAllWatched (Run.check P otherwise) fuel' (s.chunk source).statements
    (s.prepared (s.chunk source)) = x at outcome ⊢
  generalize executeAll fuel' (s.chunk source).statements (s.prepared (s.chunk source)) = y
    at outcome ⊢
  cases outcome with
  | ok _ matched' _ => rw [Comparison.eq_of_matched same alike'.before distances matched']
  | error _ matched' halts =>
      rw [Comparison.eq_of_matched same alike'.before distances matched',
        Alike.eq_of_haltMatch alike'.culprit halts]

end Lox
