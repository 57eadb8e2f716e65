import Lox.Proofs.Session.Alike

/-!
# Rejected chunks

A chunk with static errors is only reported.  What it leaves behind in the session are sites that no
other chunk has, and perhaps distances recorded under them (`Session.Unaffected`), so that the
session goes on as if the chunk had not been there: with it, the same chunks are executed with sites
further on, and sessions that differ in this are `Alike`.
-/

namespace Lox

/-- A session and what it has become without executing anything. -/
structure Session.Unaffected (s s' : Session) : Prop where
  heap : s'.machine.heap = s.machine.heap
  globals : s'.machine.globals = s.machine.globals
  current : s'.machine.current = s.machine.current
  sink : s'.machine.sink = s.machine.sink.emptied
  clock : s'.machine.clock = s.machine.clock
  readings : s'.machine.readings = s.machine.readings
  nextSite : s.nextSite ≤ s'.nextSite
  distances : ∀ site, site < s.nextSite ∨ s'.nextSite ≤ site →
    s'.machine.distances[site]? = s.machine.distances[site]?

namespace Session

variable {fuel : Nat}

/-- Only sites of the chunk have got distances. -/
theorem unaffected_rejected (s : Session) (source : String) :
    s.Unaffected (s.rejected (s.chunk source)) := by
  have numbered : Numbered s.nextSite (s.chunk source).nextSite (s.chunk source).statements :=
    Chunk.numbered source s.nextSite
  rw [rejected]
  split
  · rw [prepared, Machine.recordAll_eq]
    refine ⟨rfl, rfl, rfl, rfl, rfl, rfl, numbered.le, fun site outside => ?_⟩
    have other := numbered.getElem?_recorded_of_other .same s.machine.distances site
      fun site' first last => by
        rcases outside with before | behind
        · exact Nat.ne_of_gt (Nat.lt_of_lt_of_le before first)
        · exact Nat.ne_of_lt (Nat.lt_of_lt_of_le last behind)
    rwa [Binding.map_relabel_same] at other
  · exact ⟨rfl, rfl, rfl, rfl, rfl, rfl, numbered.le, fun _ _ => rfl⟩

/-- A chunk of which static errors are reported was rejected. -/
theorem not_clean_of_hasError {s s' : Session} {source : String} {report : Report}
    (ran : s.run fuel source = some (report, s')) (faulty : report.diagnostics.hasError) :
    ¬ (s.chunk source).Clean := by
  intro clean
  rw [run_of_clean s clean, perform] at ran
  split at ran
  · cases ran
    cases faulty
  · obtain ⟨d, -, hd⟩ := Option.map_eq_some_iff.1 ran
    cases hd
    cases faulty

theorem length_of_runAll {s s' : Session} {sources : List String} {reports : List Report}
    (ran : s.runAll fuel sources = some (reports, s')) : reports.length = sources.length := by
  induction sources generalizing s reports with
  | nil =>
      cases ran
      rfl
  | cons source sources ih =>
      obtain ⟨_, _, _, -, others, rfl⟩ := exists_of_runAll_cons ran
      rw [List.length_cons, List.length_cons, ih others]

end Session

/-- The sites of chunks that are read one after the other. -/
theorem Chunk.sites_of_mem_readAll {firstSite : Site} {sources : List String} {chunk : Chunk}
    (h : chunk ∈ Chunk.readAll firstSite sources) {site : Site}
    (hs : site ∈ sitesOf (Stmt.nodesAll chunk.statements)) : firstSite ≤ site := by
  induction sources generalizing firstSite with
  | nil => cases h
  | cons source sources ih =>
      have numbered := Chunk.numbered source firstSite
      rcases List.mem_cons.1 h with rfl | h
      · exact (numbered.sites site hs).1
      · exact Nat.le_trans numbered.le (ih h)

/-- The sites of the chunks that a session has read are used up. -/
theorem Chunk.sites_lt_of_runAll {fuel : Nat} {s s' : Session} {sources : List String}
    {reports : List Report} (ran : s.runAll fuel sources = some (reports, s')) :
    s.nextSite ≤ s'.nextSite ∧ ∀ chunk ∈ Chunk.readAll s.nextSite sources,
      ∀ site ∈ sitesOf (Stmt.nodesAll chunk.statements), site < s'.nextSite := by
  induction sources generalizing s reports with
  | nil =>
      cases ran
      exact ⟨Nat.le_refl _, fun _ h => by cases h⟩
  | cons source sources ih =>
      obtain ⟨_, _, _, first, others, -⟩ := Session.exists_of_runAll_cons ran
      obtain ⟨le, later⟩ := ih others
      have numbered : Numbered s.nextSite (s.chunk source).nextSite (s.chunk source).statements :=
        Chunk.numbered source s.nextSite
      have next := Session.nextSite_of_run first
      rw [next] at le later
      refine ⟨Nat.le_trans numbered.le le, fun chunk hc site hs => ?_⟩
      rcases List.mem_cons.1 hc with rfl | hc
      · exact Nat.lt_of_lt_of_le (numbered.sites site hs).2 le
      · exact later chunk hc site hs

namespace Alike

variable {vs : List Visit} {c : Comparison} {s s' : Session}

/-- A session is alike to what it becomes without executing anything. -/
theorem overtake (h : Alike 0 vs c s s) (unaffected : s.Unaffected s') :
    ∃ k c', Alike k vs c' s s' := by
  obtain ⟨w, place, matched⟩ := h.matched
  have known₁ : s.machine.distances = c.first := matched.distances₁
  have known₂ : s.machine.distances = c.second := matched.distances₂
  have same (r : Relabeling) (hr : c.relabels r) : r = .same := (h.relabels r hr).elim id id
  have old (r : Relabeling) (v : Visit) (hv : c.visited r v) :
      v.Recorded c.first s'.machine.distances c.culprit r := by
    have known := c.recorded r v hv
    refine ⟨known.distance, fun site name refers => ?_, known.culprit, known.formed⟩
    rw [unaffected.distances _ (Or.inl (h.sites r v hv site name refers).2), known₂]
    exact known.copied site name refers
  let c' : Comparison := { c with second := s'.machine.distances, recorded := old }
  refine ⟨s'.nextSite - s.nextSite, c', ?_⟩
  exact {
    matched := by
      refine ⟨w, place, ?_⟩
      have moved := Comparison.matched_of_visited (c := c) c' (fun _ => id) (fun _ _ => id) matched
        s.machine.emptied.sink s'.machine.emptied.sink (by
          rw [show c'.before = "" from h.before, Machine.emptied, Machine.emptied, unaffected.sink]
          rfl)
      have machine : s'.machine.emptied = { s.machine.emptied with
          distances := c'.second, sink := s'.machine.emptied.sink } := by
        simp only [Machine.emptied, unaffected.heap, unaffected.globals, unaffected.current,
          unaffected.clock, unaffected.readings]
        rfl
      rw [machine]
      rwa [show c'.first = s.machine.emptied.distances from known₁.symm] at moved
    before := h.before
    culprit := h.culprit
    relabels := fun r hr => Or.inl (same r hr)
    visited := h.visited
    sites := fun r v hv site name refers => by
      obtain ⟨old₁, old₂⟩ := h.sites r v hv site name refers
      exact ⟨old₁, Nat.lt_of_lt_of_le old₂ unaffected.nextSite⟩
    fresh₁ := h.fresh₁
    fresh₂ := fun site le => by
      rw [show c'.second = s'.machine.distances from rfl, unaffected.distances site (Or.inr le),
        known₂]
      exact h.fresh₂ site (Nat.le_trans unaffected.nextSite le)
    nextSite := (Nat.add_sub_cancel' unaffected.nextSite).symm }

end Alike

/-- A chunk with static errors prints nothing and executes nothing; without it, all other chunks of
the session are reported as with it. -/
theorem rejected_chunk_invisible (sink : Sink) (clock : Nat → Float) (fuel : Nat)
    {earlier : List String} {source : String} {reports : List Report} {report : Report}
    {s s' : Session}
    (ran : (Session.initial sink clock).runAll fuel earlier = some (reports, s))
    (step : s.run fuel source = some (report, s')) (faulty : report.diagnostics.hasError)
    (later : List String) :
    (report.output = "" ∧ report.diagnostics.failure = none ∧ s.Unaffected s') ∧
      (∀ chunk ∈ Chunk.readAll 0 earlier ++ Chunk.readAll s'.nextSite later,
        ∀ site ∈ sitesOf (Stmt.nodesAll chunk.statements),
          s'.machine.distances[site]? = s.machine.distances[site]?) ∧
      ((Session.initial sink clock).runAll fuel (earlier ++ later)).map Prod.fst =
        ((Session.initial sink clock).runAll fuel (earlier ++ source :: later)).map
          fun p => p.1.eraseIdx earlier.length := by
  have rejected := Session.not_clean_of_hasError step faulty
  rw [Session.run_of_not_clean s rejected] at step
  cases step
  have unaffected := s.unaffected_rejected source
  refine ⟨⟨rfl, rfl, unaffected⟩, fun chunk hc site hs => ?_, ?_⟩
  · rcases List.mem_append.1 hc with hc | hc
    · exact unaffected.distances site (Or.inl ((Chunk.sites_lt_of_runAll ran).2 chunk hc site hs))
    · exact unaffected.distances site (Or.inr (Chunk.sites_of_mem_readAll hc hs))
  · -- the session before the chunk is alike to itself, and then to the session after it
    have itself := (Alike.initial sink clock).runAll fuel earlier
    rw [ran] at itself
    rcases itself with stuck | ⟨_, _, _, c, h₁, h₂, alike⟩
    · cases stuck.1
    cases h₁
    cases h₂
    obtain ⟨k, c', alike⟩ := alike.overtake unaffected
    rw [Session.runAll_append, Session.runAll_append, ran, Option.bind_some, Option.bind_some]
    dsimp only
    rw [Session.runAll_cons, Session.run_of_not_clean s rejected, Option.bind_some]
    dsimp only
    rcases alike.runAll fuel later with stuck | ⟨rest, _, _, _, ran₁, ran₂, -⟩
    · rw [stuck.1, stuck.2]
      rfl
    · rw [ran₁, ran₂, ← Session.length_of_runAll ran]
      simp [List.eraseIdx_append_of_length_le]

/-- A chunk with an error in its scopes, between one that declares a function and one that calls
it. -/
theorem rejected_chunk_invisible_between :
    ∃ reports s report s', (Session.initial .unlimited fun _ => 0).runAll 20
        ["fun f(x) \x7b return x; \x7d"] = some (reports, s) ∧
      s.run 20 "\x7b var a = a; \x7d" = some (report, s') ∧ report.diagnostics.hasError ∧
      s.Unaffected s' ∧
      ((Session.initial .unlimited fun _ => 0).runAll 20
          ["fun f(x) \x7b return x; \x7d", "print f(nil);"]).map Prod.fst =
        ((Session.initial .unlimited fun _ => 0).runAll 20
          ["fun f(x) \x7b return x; \x7d", "\x7b var a = a; \x7d", "print f(nil);"]).map
            fun p => p.1.eraseIdx 1 := by
  have faulty : ((Session.initial .unlimited fun _ => 0).runAll 20
      ["fun f(x) \x7b return x; \x7d"]).any fun p =>
        (p.2.run 20 "\x7b var a = a; \x7d").any fun q => q.1.diagnostics.hasError := by
    decide +kernel
  obtain ⟨⟨reports, s⟩, ran, faulty⟩ := (Option.any_eq_true _ _).1 faulty
  obtain ⟨⟨report, s'⟩, step, faulty⟩ := (Option.any_eq_true _ _).1 faulty
  obtain ⟨⟨-, -, unaffected⟩, -, same⟩ :=
    rejected_chunk_invisible .unlimited _ 20 ran step faulty ["print f(nil);"]
  exact ⟨reports, s, report, s', ran, step, faulty, unaffected, same⟩

end Lox
