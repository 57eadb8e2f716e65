import Lox.Proofs.Session.Retention
import Lox.Proofs.Session.Watched

/-!
# The numbers of a session

Sites are handed out over the whole session, and no number is used twice: each chunk has the numbers
from the first free one of the session up to the first that it leaves free, also if some of them
were given to phrases that are not in its statements any more, or if the chunk is rejected.

So the distances of a chunk are recorded where nothing is recorded yet, and stay what they are:
whenever a name is looked up, in whatever chunk its node was read, the distance is the one that the
analysis of that chunk has found (`sites_apart`).
-/

namespace Lox

def Chunk.sites (chunk : Chunk) : List Site := sitesOf (Stmt.nodesAll chunk.statements)

/-- The distances that the analysis of a chunk records, as if it were the first. -/
def Chunk.distances (chunk : Chunk) : Std.TreeMap Site Nat :=
  if chunk.errors = [] then recorded ∅ (bindingsOf (analyze chunk.statements)) else ∅

/-- No site is given twice. -/
theorem Chunk.nodup_sites_readAll (firstSite : Site) (sources : List String) :
    ((Chunk.readAll firstSite sources).flatMap Chunk.sites).Nodup := by
  induction sources generalizing firstSite with
  | nil => exact List.nodup_nil
  | cons source sources ih =>
      have numbered := Chunk.numbered source firstSite
      rw [Chunk.readAll, List.flatMap_cons, List.nodup_append]
      refine ⟨numbered.nodup, ih _, fun site hs site' hs' => ?_⟩
      obtain ⟨chunk, hc, hs'⟩ := List.mem_flatMap.1 hs'
      exact Nat.ne_of_lt (Nat.lt_of_lt_of_le (numbered.sites site hs).2
        (Chunk.sites_of_mem_readAll hc hs'))

/-- Where nothing was recorded, only what is recorded now counts. -/
theorem getElem?_recorded_of_fresh {known : Std.TreeMap Site Nat} {bs : List Binding}
    (nodup : (bs.map Binding.site).Nodup) {site : Site} (fresh : known[site]? = none) :
    (recorded known bs)[site]? = (recorded ∅ bs)[site]? := by
  by_cases bound : site ∈ bs.map Binding.site
  · obtain ⟨b, hb, rfl⟩ := List.mem_map.1 bound
    rw [getElem?_recorded_of_mem known nodup hb fresh, getElem?_recorded_of_mem ∅ nodup hb rfl]
  · rw [getElem?_recorded_of_not_mem known bound, getElem?_recorded_of_not_mem ∅ bound, fresh]
    rfl

/-- The distances after a chunk was analyzed, if it was. -/
def Session.distancesAfter (s : Session) (chunk : Chunk) : Std.TreeMap Site Nat :=
  if chunk.errors = [] then
    recorded s.machine.distances (bindingsOf (analyze chunk.statements))
  else s.machine.distances

/-- What the distances of a session say about the chunks that it has read. -/
structure Session.Remembers (s : Session) (chunks : List Chunk) : Prop where
  below : ∀ c ∈ chunks, ∀ site ∈ c.sites, site < s.nextSite
  distances : ∀ c ∈ chunks, ∀ site ∈ c.sites, s.machine.distances[site]? = c.distances[site]?
  fresh : ∀ site, s.nextSite ≤ site → s.machine.distances[site]? = none

namespace Session

variable {s s' : Session} {chunks : List Chunk}

theorem remembers_initial (sink : Sink) (clock : Nat → Float) :
    (Session.initial sink clock).Remembers [] where
  below _ h := by cases h
  distances _ h := by cases h
  fresh _ _ := rfl

/-- Another chunk is read and perhaps analyzed. -/
theorem Remembers.read (h : s.Remembers chunks) (source : String) {m : Machine}
    (distances : m.distances = s.distancesAfter (s.chunk source)) :
    Remembers ⟨m, (s.chunk source).nextSite⟩ (chunks ++ [s.chunk source]) := by
  have numbered : Numbered s.nextSite (s.chunk source).nextSite (s.chunk source).statements :=
    Chunk.numbered source s.nextSite
  -- a site that does not belong to the chunk
  have other (site : Site) (apart : site ∉ (s.chunk source).sites) :
      m.distances[site]? = s.machine.distances[site]? := by
    rw [distances, distancesAfter]
    split
    · refine getElem?_recorded_of_not_mem _ fun bound => apart ?_
      exact (sites_analyze_sublist _).subset bound
    · rfl
  constructor
  · intro c hc site hs
    rcases List.mem_append.1 hc with hc | hc
    · exact Nat.lt_of_lt_of_le (h.below c hc site hs) numbered.le
    · obtain rfl := List.mem_singleton.1 hc
      exact (numbered.sites site hs).2
  · intro c hc site hs
    rcases List.mem_append.1 hc with hc | hc
    · rw [← h.distances c hc site hs]
      refine other site fun here => ?_
      exact Nat.not_lt.2 (numbered.sites site here).1 (h.below c hc site hs)
    · obtain rfl := List.mem_singleton.1 hc
      have fresh := h.fresh site (numbered.sites site hs).1
      rw [distances, distancesAfter, Chunk.distances]
      split
      · exact getElem?_recorded_of_fresh numbered.bindings_nodup fresh
      · exact fresh
  · intro site beyond
    rw [other site fun here => Nat.not_lt.2 beyond (numbered.sites site here).2]
    exact h.fresh site (Nat.le_trans numbered.le beyond)

/-- When the distance of a reference is recorded, nothing is recorded at its site yet. -/
theorem Remembers.unrecorded (h : s.Remembers chunks) (source : String) {b : Binding}
    {before after : List Binding}
    (split : bindingsOf (analyze (s.chunk source).statements) = before ++ b :: after) :
    (s.machine.recordAll before).distances[b.site]? = none := by
  have numbered : Numbered s.nextSite (s.chunk source).nextSite (s.chunk source).statements :=
    Chunk.numbered source s.nextSite
  have mem : b ∈ bindingsOf (analyze (s.chunk source).statements) := by
    rw [split]
    exact List.mem_append_right _ List.mem_cons_self
  have nodup := numbered.bindings_nodup
  rw [split, List.map_append, List.map_cons, List.nodup_append] at nodup
  have first : b.site ∉ before.map Binding.site := fun earlier =>
    nodup.2.2 _ earlier _ List.mem_cons_self rfl
  rw [Machine.recordAll_eq]
  dsimp only
  rw [getElem?_recorded_of_not_mem _ first]
  exact h.fresh _ (numbered.bindings_sites (List.mem_map_of_mem mem)).1

theorem distances_prepared {chunk : Chunk} (errors : chunk.errors = []) :
    (s.prepared chunk).distances = s.distancesAfter chunk := by
  rw [prepared, Machine.recordAll_eq, distancesAfter, if_pos errors]
  rfl

/-- Executing a chunk records nothing. -/
theorem distances_of_run {fuel : Nat} {source : String} {report : Report}
    (ran : s.run fuel source = some (report, s')) :
    s'.machine.distances = s.distancesAfter (s.chunk source) := by
  by_cases clean : (s.chunk source).Clean
  · rw [s.run_of_clean clean] at ran
    rw [(retains_of_perform ran).2, distances_prepared clean.1]
  · rw [s.run_of_not_clean clean] at ran
    cases ran
    rw [rejected]
    split
    · exact distances_prepared ‹_›
    · rw [distancesAfter, if_neg ‹_›]
      rfl

theorem Remembers.run (h : s.Remembers chunks) {fuel : Nat} {source : String} {report : Report}
    (ran : s.run fuel source = some (report, s')) :
    s'.Remembers (chunks ++ [s.chunk source]) := by
  have after := h.read source (distances_of_run ran)
  rwa [← nextSite_of_run ran] at after

theorem Remembers.runAll (h : s.Remembers chunks) {fuel : Nat} {sources : List String}
    {reports : List Report} (ran : s.runAll fuel sources = some (reports, s')) :
    s'.Remembers (chunks ++ Chunk.readAll s.nextSite sources) := by
  induction sources generalizing s chunks reports with
  | nil =>
      cases ran
      rwa [Chunk.readAll, List.append_nil]
  | cons source sources ih =>
      obtain ⟨_, _, _, first, others, -⟩ := exists_of_runAll_cons ran
      have after := ih (h.run first) others
      rwa [nextSite_of_run first, List.append_assoc] at after

end Session

/-- The moment at which a node starts, in a session that has read some chunks. -/
structure Remembered (chunks : List Chunk) (n : Node) (m : Machine) : Prop where
  /-- The node was read with one of the chunks. -/
  node : ∃ c ∈ chunks, n ∈ Stmt.nodesAll c.statements
  distances : ∀ c ∈ chunks, ∀ site ∈ c.sites, m.distances[site]? = c.distances[site]?

/-- What is visited in a chunk is in its statements. -/
theorem Chunk.mem_nodes_of_mem_visits (chunk : Chunk) {v : Visit} (hv : v ∈ chunk.visits) :
    v.node ∈ Stmt.nodesAll chunk.statements := by
  rw [Chunk.visits] at hv
  split at hv
  · exact node_mem_of_mem_visits hv
  · cases hv

/-- Whatever chunks a session has run, also with errors, and whichever one it runs next: all
references in all of them have different sites; those of a chunk are between the first free sites of
the session before and after it; what the analysis finds is recorded at most once for a site and
where nothing is recorded yet; and when a node starts, and afterwards, the distances at the sites of
each chunk are those that the analysis of that chunk has found. -/
theorem sites_apart (sink : Sink) (clock : Nat → Float) {fuel : Nat} {earlier : List String}
    {reports : List Report} {s : Session}
    (ran : (Session.initial sink clock).runAll fuel earlier = some (reports, s)) (source : String)
    (fuel' : Nat) :
    let chunk := s.chunk source
    let chunks := Chunk.readAll 0 (earlier ++ [source])
    let bindings := bindingsOf (analyze chunk.statements)
    (chunks.flatMap Chunk.sites).Nodup ∧
      (∀ site ∈ chunk.sites, s.nextSite ≤ site ∧ site < chunk.nextSite) ∧
      (bindings.map Binding.site).Nodup ∧
      (∀ before b after, bindings = before ++ b :: after →
        (s.machine.recordAll before).distances[b.site]? = none) ∧
      (chunk.Clean →
        Throughout (Remembered chunks) fuel' chunk.statements (s.prepared chunk)) ∧
      ∀ report s', s.run fuel' source = some (report, s') →
        s'.nextSite = chunk.nextSite ∧
          ∀ c ∈ chunks, ∀ site ∈ c.sites, s'.machine.distances[site]? = c.distances[site]? := by
  intro chunk chunks bindings
  have numbered : Numbered s.nextSite chunk.nextSite chunk.statements :=
    Chunk.numbered source s.nextSite
  have remembers := (Session.remembers_initial sink clock).runAll ran
  have read : chunks = [] ++ Chunk.readAll 0 earlier ++ [chunk] :=
    Session.readAll_append_of_runAll ran [source]
  refine ⟨Chunk.nodup_sites_readAll 0 _, numbered.sites, numbered.bindings_nodup, ?_, ?_, ?_⟩
  · intro before b after split
    exact remembers.unrecorded source split
  · intro clean
    have prepared := remembers.read source (Session.distances_prepared clean.1)
    have resolved : Throughout (Resolved (visitsOf 0 (earlier ++ [source]))) fuel'
        chunk.statements (s.prepared chunk) := by
      apply throughout_of_watches sink clock ran clean
      intro c visited otherwise
      exact Comparison.watches (sources_visitsOf 0 _) visited otherwise
    refine Retention.throughout (fun n m distances found => ⟨?_, ?_⟩) resolved
    · obtain ⟨v, hv, rfl, -⟩ := found.visited
      obtain ⟨c, hc, hv⟩ := List.mem_flatMap.1 hv
      exact ⟨c, hc, c.mem_nodes_of_mem_visits hv⟩
    · rw [read, distances]
      exact prepared.distances
  · intro report s' ended
    have after := remembers.run ended
    rw [read]
    exact ⟨Session.nextSite_of_run ended, after.distances⟩

/-- A function that is called after a chunk that lost a statement. -/
theorem sites_apart_function :
    ∃ reports s, (Session.initial .unlimited fun _ => 0).runAll 20
        ["fun f(x) \x7b return x = x; \x7d", "\x7b a = b; c + ; \x7d d = e;"] = some (reports, s) ∧
      (s.chunk "f(nil);").Clean ∧
      Throughout (Remembered (Chunk.readAll 0
          ["fun f(x) \x7b return x = x; \x7d", "\x7b a = b; c + ; \x7d d = e;", "f(nil);"]))
        20 (s.chunk "f(nil);").statements (s.prepared (s.chunk "f(nil);")) := by
  have accepted : ((Session.initial .unlimited fun _ => 0).runAll 20
      ["fun f(x) \x7b return x = x; \x7d", "\x7b a = b; c + ; \x7d d = e;"]).any
        fun p => decide (p.2.chunk "f(nil);").Clean := by decide +kernel
  obtain ⟨⟨reports, s⟩, ran, clean⟩ := (Option.any_eq_true _ _).1 accepted
  have clean := of_decide_eq_true clean
  obtain ⟨-, -, -, -, throughout, -⟩ := sites_apart .unlimited _ ran "f(nil);" 20
  exact ⟨reports, s, ran, clean, throughout clean⟩

end Lox
