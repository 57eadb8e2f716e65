import Lox.Proofs.Session.Comparison
import Lox.Proofs.Session.Run

/-!
# Sessions that run alike

Two sessions are `Alike` if they have executed the same chunks, though perhaps with other sites: the
second one may have read chunks in between that were rejected, so that its sites are `k` ahead.
What was executed before the second session got ahead has the same sites in both.

Alike sessions report the same of the next chunk, and are alike after it (`Alike.run`).
-/

namespace Lox

def Chunk.visits (chunk : Chunk) : List Visit :=
  if chunk.Clean then Lox.visits chunk.statements else []

/-- Two sessions that have executed the chunks with the visits `vs`. -/
structure Alike (k : Nat) (vs : List Visit) (c : Comparison) (s₁ s₂ : Session) : Prop where
  matched : ∃ w : World, w.At .top ∧
    c.correspondence.Matched w s₁.machine.emptied s₂.machine.emptied
  before : c.before = ""
  culprit : c.culprit = Eq
  relabels : ∀ r, c.relabels r → r = .same ∨ r = .shift k
  visited : ∀ r v, c.visited r v → v ∈ vs
  sites : ∀ r v, c.visited r v → ∀ site name, v.node.reference? = some (site, name) →
    site < s₁.nextSite ∧ r.site site < s₂.nextSite
  fresh₁ : ∀ site, s₁.nextSite ≤ site → c.first[site]? = none
  fresh₂ : ∀ site, s₂.nextSite ≤ site → c.second[site]? = none
  nextSite : s₂.nextSite = s₁.nextSite + k

namespace Alike

variable {k : Nat} {vs : List Visit} {c : Comparison} {s₁ s₂ : Session} {chunk : Chunk}

/-- A session is alike to itself. -/
theorem initial (sink : Sink) (clock : Nat → Float) :
    Alike 0 [] (.start Eq) (.initial sink clock) (.initial sink clock) where
  matched := Comparison.matched_initial Eq sink.emptied clock
  before := rfl
  culprit := rfl
  relabels _ h := h.elim
  visited _ _ h := h.elim
  sites _ _ h := h.elim
  fresh₁ _ _ := rfl
  fresh₂ _ _ := rfl
  nextSite := rfl

/-- What was found out about earlier visits stays when more is recorded for new sites. -/
theorem recorded_old (h : Alike k vs c s₁ s₂) {bs₁ bs₂ : List Binding}
    (new₁ : ∀ site ∈ bs₁.map Binding.site, s₁.nextSite ≤ site)
    (new₂ : ∀ site ∈ bs₂.map Binding.site, s₂.nextSite ≤ site) {r : Relabeling} {v : Visit}
    (hv : c.visited r v) :
    v.Recorded (recorded c.first bs₁) (recorded c.second bs₂) c.culprit r := by
  have known := c.recorded r v hv
  have first (site : Site) (name : Token) (refers : v.node.reference? = some (site, name)) :
      (recorded c.first bs₁)[site]? = c.first[site]? := by
    have old := (h.sites r v hv site name refers).1
    exact getElem?_recorded_of_not_mem _ fun hs => Nat.not_lt.2 (new₁ site hs) old
  refine ⟨fun site name refers => ?_, fun site name refers => ?_, known.culprit, known.formed⟩
  · rw [first site name refers]
    exact known.distance site name refers
  · have old := (h.sites r v hv site name refers).2
    rw [first site name refers, getElem?_recorded_of_not_mem _ fun hs =>
      Nat.not_lt.2 (new₂ _ hs) old]
    exact known.copied site name refers

/-- The distances recorded for a chunk are those that its visits tell. -/
theorem recorded_new (h : Alike k vs c s₁ s₂)
    (numbered : Numbered s₁.nextSite chunk.nextSite chunk.statements) {v : Visit}
    (hv : v ∈ chunk.visits) :
    v.Recorded (recorded c.first (bindingsOf (analyze chunk.statements)))
      (recorded c.second
        ((bindingsOf (analyze chunk.statements)).map (Binding.relabel (.shift k)))) c.culprit
      (.shift k) := by
  rw [Chunk.visits] at hv
  split at hv
  · rename_i clean
    have first (site : Site) (name : Token) (refers : v.node.reference? = some (site, name)) :
        (recorded c.first (bindingsOf (analyze chunk.statements)))[site]? =
          v.scopes.distance? name.lexeme := by
      have told := numbered.getElem?_recorded .same Function.injective_id.injOn
        (fun site hs => h.fresh₁ site (numbered.bindings_sites hs).1) clean.2 hv refers
      rwa [Binding.map_relabel_same] at told
    refine ⟨first, fun site name refers => ?_, fun t _ => ?_, numbered.visit_formed hv⟩
    · rw [first site name refers]
      refine numbered.getElem?_recorded (.shift k) (fun _ _ _ _ => Nat.add_right_cancel)
        (fun site hs => h.fresh₂ _ ?_) clean.2 hv refers
      rw [h.nextSite]
      exact Nat.add_le_add_right (numbered.bindings_sites hs).1 k
    · rw [h.culprit]
      rfl
  · cases hv

/-- Machines with what was recorded. -/
theorem prepared_eq {s : Session} {distances : Std.TreeMap Site Nat}
    (known : s.machine.emptied.distances = distances) (chunk : Chunk) :
    (s.prepared chunk).emptied = { s.machine.emptied with
      distances := recorded distances (bindingsOf (analyze chunk.statements))
      sink := s.machine.emptied.sink } := by
  rw [Session.prepared, Machine.recordAll_eq, known]
  rfl

/-- Alike sessions record a chunk alike. -/
theorem record (h : Alike k vs c s₁ s₂)
    (numbered : Numbered s₁.nextSite chunk.nextSite chunk.statements) :
    ∃ c' : Comparison, c'.relabels (.shift k) ∧ (∀ v ∈ chunk.visits, c'.visited (.shift k) v) ∧
      Alike k (vs ++ chunk.visits) c' ⟨s₁.prepared chunk, chunk.nextSite⟩
        ⟨s₂.prepared (chunk.shift k), (chunk.shift k).nextSite⟩ := by
  let bs := bindingsOf (analyze chunk.statements)
  let first := recorded c.first bs
  let second := recorded c.second (bs.map (Binding.relabel (.shift k)))
  have new₁ (site : Site) (hs : site ∈ bs.map Binding.site) : s₁.nextSite ≤ site :=
    (numbered.bindings_sites hs).1
  have new₂ (site : Site) (hs : site ∈ (bs.map (Binding.relabel (.shift k))).map Binding.site) :
      s₂.nextSite ≤ site := by
    rw [List.map_map, List.mem_map] at hs
    obtain ⟨b, hb, rfl⟩ := hs
    rw [h.nextSite]
    exact Nat.add_le_add_right (new₁ _ (List.mem_map_of_mem hb)) k
  let c' := c.next first second "" (.shift k) (Relabeling.shift_shifts k).toFaithful chunk.visits
    (fun _ _ => h.recorded_old new₁ new₂) (fun _ => h.recorded_new numbered)
  refine ⟨c', Or.inr rfl, fun v hv => Or.inr ⟨rfl, hv⟩, ?_⟩
  have grown : s₁.nextSite ≤ chunk.nextSite := numbered.le
  exact {
    matched := by
      obtain ⟨w, place, matched⟩ := h.matched
      refine ⟨w, place, ?_⟩
      rw [prepared_eq matched.distances₁, prepared_eq matched.distances₂, Chunk.analyze_shift,
        bindingsOf_map_relabel]
      refine Comparison.matched_of_visited c' (fun _ => Or.inl) (fun _ _ => Or.inl) matched _ _ ?_
      have sink := matched.sink
      rwa [show c.correspondence.before = "" from h.before] at sink
    before := rfl
    culprit := h.culprit
    relabels := fun r hr => hr.elim (h.relabels r) Or.inr
    visited := fun r v hv => List.mem_append.2 (hv.imp (h.visited r v) And.right)
    sites := by
      rintro r v (hv | ⟨rfl, hv⟩) site name refers
      · obtain ⟨old₁, old₂⟩ := h.sites r v hv site name refers
        refine ⟨Nat.lt_of_lt_of_le old₁ grown, Nat.lt_of_lt_of_le old₂ ?_⟩
        rw [h.nextSite]
        exact Nat.add_le_add_right grown k
      · rw [Chunk.visits] at hv
        split at hv
        · have range := numbered.visit_sites hv refers
          exact ⟨range.2, Nat.add_lt_add_right range.2 k⟩
        · cases hv
    fresh₁ := fun site le => by
      have other := numbered.getElem?_recorded_of_other .same c.first site
        fun site' _ lt => Nat.ne_of_lt (Nat.lt_of_lt_of_le lt le)
      rw [Binding.map_relabel_same] at other
      exact other.trans (h.fresh₁ site (Nat.le_trans grown le))
    fresh₂ := fun site le => by
      have other := numbered.getElem?_recorded_of_other (.shift k) c.second site
        fun site' _ lt => Nat.ne_of_lt (Nat.lt_of_lt_of_le (Nat.add_lt_add_right lt k) le)
      refine other.trans (h.fresh₂ site (Nat.le_trans ?_ le))
      rw [h.nextSite]
      exact Nat.add_le_add_right grown k
    nextSite := rfl }

/-- Machines that are matched again after some steps. -/
theorem of_matched (h : Alike k vs c s₁ s₂) {w : World} {m₁ m₂ : Machine} (place : w.At .top)
    (matched : c.correspondence.Matched w m₁ m₂) :
    Alike k vs c ⟨m₁, s₁.nextSite⟩ ⟨m₂, s₂.nextSite⟩ :=
  { h with
    matched := by
      refine ⟨w, place, ?_⟩
      have emptied := Comparison.matched_of_visited c (fun _ => id) (fun _ _ => id) matched
        m₁.sink.emptied m₂.sink.emptied (by
          rw [matched.sink, h.before]
          rfl)
      have known₁ : m₁.distances = c.first := matched.distances₁
      have known₂ : m₂.distances = c.second := matched.distances₂
      rwa [← known₁, ← known₂] at emptied }

/-- Alike sessions read a text as the same chunk, up to its sites. -/
theorem chunk_eq (h : Alike k vs c s₁ s₂) (source : String) :
    s₂.chunk source = (s₁.chunk source).shift k := by
  rw [Session.chunk, h.nextSite, Chunk.read_shift]
  rfl

theorem prepared_emptied (s : Session) (chunk : Chunk) :
    (s.prepared chunk).emptied = s.prepared chunk := by
  rw [Session.prepared, Machine.recordAll_eq]
  rfl

/-- Halts in which nothing differs are the same. -/
theorem eq_of_haltMatch (culprit : c.culprit = Eq) {h₁ h₂ : Halt}
    (h : c.correspondence.HaltMatch h₁ h₂) : h₂ = h₁ := by
  cases h with
  | error fault same =>
      rw [show c.correspondence.culprit = Eq from culprit] at same
      rw [same]
  | output e => rfl
  | outOfFuel => rfl

/-- Messages in which nothing differs are the same. -/
theorem eq_of_failureMatch (culprit : c.culprit = Eq) {d₁ d₂ : Diagnostic}
    (h : c.correspondence.FailureMatch d₁ d₂) : d₂ = d₁ := by
  cases h with
  | runtime fault same =>
      rw [show c.correspondence.culprit = Eq from culprit] at same
      rw [same]
  | output e => rfl

/-- Reports in which nothing differs are the same. -/
theorem eq_of_performMatch (before : c.before = "") (culprit : c.culprit = Eq)
    {p q : Report × Session} (ends : c.correspondence.PerformMatch p q) : q.1 = p.1 := by
  obtain ⟨⟨output, static, failure⟩, s⟩ := p
  obtain ⟨⟨output', static', failure'⟩, s'⟩ := q
  have text : output' = output := by
    have whole : output' = c.before ++ output := ends.output
    rw [whole, before]
    exact String.empty_append
  have same : failure' = failure := by
    cases ends.failure with
    | none => rfl
    | some d => rw [eq_of_failureMatch culprit d]
  cases ends.static₁
  cases ends.static₂
  rw [text, same]

/-- Alike sessions execute a chunk alike. -/
theorem perform (h : Alike k vs c s₁ s₂) (fuel : Nat) {ss₁ ss₂ : List Stmt}
    (statements : c.correspondence.Statements .top ss₁ ss₂)
    (emptied₁ : s₁.machine.emptied = s₁.machine) (emptied₂ : s₂.machine.emptied = s₂.machine) :
    (Session.perform fuel ss₁ s₁.nextSite s₁.machine = none ∧
        Session.perform fuel ss₂ s₂.nextSite s₂.machine = none) ∨
      ∃ report s₁' s₂', Session.perform fuel ss₁ s₁.nextSite s₁.machine = some (report, s₁') ∧
        Session.perform fuel ss₂ s₂.nextSite s₂.machine = some (report, s₂') ∧
        Alike k vs c s₁' s₂' := by
  obtain ⟨w, place, matched⟩ := h.matched
  rw [emptied₁, emptied₂] at matched
  have ends := Correspondence.perform_match c.closed fuel statements place matched s₁.nextSite
    s₂.nextSite
  have next₁ (p) (ran : Session.perform fuel ss₁ s₁.nextSite s₁.machine = some p) :=
    Session.nextSite_of_perform ran
  have next₂ (q) (ran : Session.perform fuel ss₂ s₂.nextSite s₂.machine = some q) :=
    Session.nextSite_of_perform ran
  generalize Session.perform fuel ss₁ s₁.nextSite s₁.machine = o₁ at ends next₁
  generalize Session.perform fuel ss₂ s₂.nextSite s₂.machine = o₂ at ends next₂
  cases ends with
  | none => exact Or.inl ⟨rfl, rfl⟩
  | @some p q ends =>
      obtain ⟨w', place', matched'⟩ := ends.matched
      have after := h.of_matched place' matched'
      rw [← next₁ p rfl, ← next₂ q rfl] at after
      refine Or.inr ⟨p.1, p.2, q.2, rfl, ?_, after⟩
      rw [← eq_of_performMatch h.before h.culprit ends]

/-- Alike sessions reject a chunk alike. -/
theorem reject (h : Alike k vs c s₁ s₂)
    (numbered : Numbered s₁.nextSite chunk.nextSite chunk.statements) (faulty : ¬ chunk.Clean) :
    ∃ c', Alike k vs c' (s₁.rejected chunk) (s₂.rejected (chunk.shift k)) := by
  have nothing : chunk.visits = [] := if_neg faulty
  by_cases errors : chunk.errors = []
  · obtain ⟨c', -, -, alike⟩ := h.record numbered
    rw [nothing, List.append_nil] at alike
    refine ⟨c', ?_⟩
    rw [Session.rejected, Session.rejected, Chunk.errors_shift, if_pos errors, if_pos errors]
    exact alike
  · have grown : s₁.nextSite ≤ chunk.nextSite := numbered.le
    have grown₂ : s₂.nextSite ≤ chunk.nextSite + k := by
      rw [h.nextSite]
      exact Nat.add_le_add_right grown k
    refine ⟨c, ?_⟩
    rw [Session.rejected, Session.rejected, Chunk.errors_shift, if_neg errors, if_neg errors]
    exact { h with
      sites := fun r v hv site name refers =>
        (h.sites r v hv site name refers).imp (Nat.lt_of_lt_of_le · grown)
          (Nat.lt_of_lt_of_le · grown₂)
      fresh₁ := fun site le => h.fresh₁ site (Nat.le_trans grown le)
      fresh₂ := fun site le => h.fresh₂ site (Nat.le_trans grown₂ le)
      nextSite := rfl }

/-- Alike sessions run a chunk alike, and are alike after it. -/
theorem run (h : Alike k vs c s₁ s₂) (fuel : Nat) (source : String) :
    (s₁.run fuel source = none ∧ s₂.run fuel source = none) ∨
      ∃ report s₁' s₂' c', s₁.run fuel source = some (report, s₁') ∧
        s₂.run fuel source = some (report, s₂') ∧
        Alike k (vs ++ (s₁.chunk source).visits) c' s₁' s₂' := by
  have numbered : Numbered s₁.nextSite (s₁.chunk source).nextSite (s₁.chunk source).statements :=
    Chunk.numbered source s₁.nextSite
  have second := h.chunk_eq source
  by_cases clean : (s₁.chunk source).Clean
  · have clean₂ : (s₂.chunk source).Clean := by
      rw [second]
      exact (Chunk.clean_shift k _).2 clean
    obtain ⟨c', relabels, visited, alike⟩ := h.record numbered
    have statements : c'.correspondence.Statements .top (s₁.chunk source).statements
        ((s₁.chunk source).shift k).statements :=
      Comparison.statements_of_chunk relabels fun v hv =>
        visited v (by rwa [Chunk.visits, if_pos clean])
    rw [Session.run_of_clean s₁ clean, Session.run_of_clean s₂ clean₂, second]
    rcases alike.perform fuel statements (prepared_emptied _ _) (prepared_emptied _ _) with
      stuck | ⟨report, s₁', s₂', ran₁, ran₂, after⟩
    · exact Or.inl stuck
    · exact Or.inr ⟨report, s₁', s₂', c', ran₁, ran₂, after⟩
  · have faulty₂ : ¬ (s₂.chunk source).Clean := by
      rw [second]
      exact (Chunk.clean_shift k _).not.2 clean
    obtain ⟨c', alike⟩ := h.reject numbered clean
    rw [Session.run_of_not_clean s₁ clean, Session.run_of_not_clean s₂ faulty₂, second,
      Chunk.staticErrors_shift]
    refine Or.inr ⟨_, _, _, c', rfl, rfl, ?_⟩
    rwa [Chunk.visits, if_neg clean, List.append_nil]

/-- Alike sessions run chunks alike, one after the other. -/
theorem runAll (h : Alike k vs c s₁ s₂) (fuel : Nat) (sources : List String) :
    (s₁.runAll fuel sources = none ∧ s₂.runAll fuel sources = none) ∨
      ∃ reports s₁' s₂' c', s₁.runAll fuel sources = some (reports, s₁') ∧
        s₂.runAll fuel sources = some (reports, s₂') ∧
        Alike k (vs ++ (Chunk.readAll s₁.nextSite sources).flatMap Chunk.visits) c' s₁' s₂' := by
  induction sources generalizing vs c s₁ s₂ with
  | nil =>
      refine Or.inr ⟨[], s₁, s₂, c, rfl, rfl, ?_⟩
      rwa [Chunk.readAll, List.flatMap_nil, List.append_nil]
  | cons source sources ih =>
      rw [Session.runAll_cons, Session.runAll_cons]
      rcases h.run fuel source with stuck | ⟨report, s₁', s₂', c', ran₁, ran₂, after⟩
      · rw [stuck.1, stuck.2]
        exact Or.inl ⟨rfl, rfl⟩
      · rw [ran₁, ran₂, Option.bind_some, Option.bind_some]
        dsimp only
        rcases ih after with stuck | ⟨reports, s₁'', s₂'', c'', ran₁', ran₂', after'⟩
        · rw [stuck.1, stuck.2]
          exact Or.inl ⟨rfl, rfl⟩
        · rw [ran₁', ran₂']
          refine Or.inr ⟨report :: reports, s₁'', s₂'', c'', rfl, rfl, ?_⟩
          rwa [Session.nextSite_of_run ran₁, List.append_assoc] at after'

end Alike

end Lox
