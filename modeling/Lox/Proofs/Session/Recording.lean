import Mathlib.Data.List.Nodup
import Mathlib.Data.Set.Function
import Lox.Session
import Lox.Proofs.Token.Scan
import Lox.Proofs.Grammar.Phrase
import Lox.Proofs.Scope.Relabel

/-!
# Recorded distances

Before a chunk is executed, the distances that the static analysis has found are recorded under the
sites of the chunk.  These sites are its own (`Numbered`), so that what was recorded for earlier
chunks stays, and what is recorded for the chunk is what the scopes of its visits tell.
-/

namespace Lox

def recorded (known : Std.TreeMap Site Nat) (bindings : List Binding) : Std.TreeMap Site Nat :=
  bindings.foldl (fun known b =>
    match b.distance with
    | some d => known.insert b.site d
    | none => known) known

theorem recorded_append (known : Std.TreeMap Site Nat) (bs bs' : List Binding) :
    recorded known (bs ++ bs') = recorded (recorded known bs) bs' := List.foldl_append

/-- Recording changes the distances only. -/
theorem Machine.recordAll_eq (m : Machine) (bs : List Binding) :
    m.recordAll bs = { m with distances := recorded m.distances bs } := by
  induction bs generalizing m with
  | nil => rfl
  | cons b bs ih =>
      have one : m.recordBinding b = { m with distances := recorded m.distances [b] } := by
        rw [Machine.recordBinding]
        cases hd : b.distance with
        | none => simp [recorded, hd]
        | some d => simp [recorded, hd, Machine.record]
      rw [Machine.recordAll, List.foldl_cons, one]
      exact ih _

theorem getElem?_recorded_of_not_mem (known : Std.TreeMap Site Nat) {bs : List Binding}
    {site : Site} (h : site ∉ bs.map Binding.site) : (recorded known bs)[site]? = known[site]? := by
  induction bs generalizing known with
  | nil => rfl
  | cons b bs ih =>
      rw [List.map_cons, List.mem_cons, not_or] at h
      have other : (recorded known [b])[site]? = known[site]? := by
        cases hd : b.distance with
        | none => simp [recorded, hd]
        | some d => simp [recorded, hd, Std.TreeMap.getElem?_insert, Ne.symm h.1]
      have rest := ih (recorded known [b]) h.2
      rwa [← recorded_append, List.singleton_append, other] at rest

/-- At the site of a binding is its distance, or what was there if it has none. -/
theorem getElem?_recorded_or (known : Std.TreeMap Site Nat) {bs : List Binding}
    (nodup : (bs.map Binding.site).Nodup) {b : Binding} (hb : b ∈ bs) :
    (recorded known bs)[b.site]? = b.distance.or known[b.site]? := by
  induction bs generalizing known with
  | nil => cases hb
  | cons b' bs ih =>
      rw [List.map_cons, List.nodup_cons] at nodup
      rw [← List.singleton_append, recorded_append]
      rcases List.mem_cons.1 hb with rfl | hb
      · rw [getElem?_recorded_of_not_mem _ nodup.1]
        cases hd : b.distance <;> simp [recorded, hd]
      · have ne : b.site ∉ [b'].map Binding.site := by
          rintro h
          exact nodup.1 (List.mem_singleton.1 h ▸ List.mem_map_of_mem hb)
        rw [ih _ nodup.2 hb, getElem?_recorded_of_not_mem _ ne]

theorem getElem?_recorded_of_mem (known : Std.TreeMap Site Nat) {bs : List Binding}
    (nodup : (bs.map Binding.site).Nodup) {b : Binding} (hb : b ∈ bs)
    (fresh : known[b.site]? = none) : (recorded known bs)[b.site]? = b.distance := by
  rw [getElem?_recorded_or known nodup hb, fresh, Option.or_none]

/-- The statements of a chunk, with sites of their own. -/
structure Numbered (first next : Site) (statements : List Stmt) : Prop where
  le : first ≤ next
  nodup : (sitesOf (Stmt.nodesAll statements)).Nodup
  sites : ∀ site ∈ sitesOf (Stmt.nodesAll statements), first ≤ site ∧ site < next
  formed : ∀ n ∈ Stmt.nodesAll statements, n.WellFormed

theorem parse_numbered (tokens : List Token) (firstSite : Site) :
    Numbered firstSite (parse tokens firstSite).nextSite (parse tokens firstSite).statements := by
  obtain ⟨s, built, next⟩ := parse_built tokens firstSite
  rw [← next]
  exact ⟨built.passed.nextSite, built.nodup, built.sites, built.formed⟩

theorem Chunk.numbered (source : String) (firstSite : Site) :
    Numbered firstSite (Chunk.read source firstSite).nextSite
      (Chunk.read source firstSite).statements :=
  parse_numbered (tokensOf (scan source)) firstSite

/-- The tokens of a chunk are those of its source. -/
theorem Chunk.mem_scan_of_mem_tokens {source : String} {firstSite : Site} {n : Node}
    (hn : n ∈ Stmt.nodesAll (Chunk.read source firstSite).statements) {t : Token}
    (ht : t ∈ n.tokens) : t ∈ tokensOf (scan source) := by
  obtain ⟨s, built, -⟩ := parse_built (tokensOf (scan source)) firstSite
  exact List.takeWhile_subset _ (built.tokens n hn t ht)

theorem map_site_binding? (vs : List Visit) :
    (vs.filterMap Visit.binding?).map Binding.site = sitesOf (vs.map Visit.node) := by
  induction vs with
  | nil => rfl
  | cons v vs ih =>
      rw [List.map_cons, ← List.singleton_append (l := vs.map Visit.node), sitesOf_append, ← ih]
      cases hr : v.node.reference? with
      | none => simp [Visit.binding?, sitesOf, hr]
      | some p => simp [Visit.binding?, sitesOf, hr]

/-- Bindings are recorded at the sites of the program. -/
theorem sites_analyze_sublist (ss : List Stmt) :
    ((bindingsOf (analyze ss)).map Binding.site).Sublist (sitesOf (Stmt.nodesAll ss)) := by
  have sub := (records_analyze ss).bindings.map Binding.site
  rwa [map_site_binding?, visits, Stmt.map_node_visitsAll] at sub

namespace Numbered

variable {first next : Site} {ss : List Stmt}

theorem bindings_nodup (h : Numbered first next ss) :
    ((bindingsOf (analyze ss)).map Binding.site).Nodup :=
  h.nodup.sublist (sites_analyze_sublist ss)

theorem bindings_sites (h : Numbered first next ss) {site : Site}
    (hs : site ∈ (bindingsOf (analyze ss)).map Binding.site) : first ≤ site ∧ site < next :=
  h.sites site ((sites_analyze_sublist ss).subset hs)

/-- The sites of visits are those of the chunk. -/
theorem visit_sites (h : Numbered first next ss) {v : Visit} (hv : v ∈ visits ss) {site : Site}
    {name : Token} (refers : v.node.reference? = some (site, name)) :
    first ≤ site ∧ site < next :=
  h.sites site (mem_sitesOf.2 ⟨v.node, node_mem_of_mem_visits hv, name, refers⟩)

theorem visit_formed (h : Numbered first next ss) {v : Visit} (hv : v ∈ visits ss) :
    v.node.WellFormed :=
  h.formed v.node (node_mem_of_mem_visits hv)

/-- What is recorded for a reference is what the scopes of its visit tell. -/
theorem getElem?_recorded (h : Numbered first next ss) (r : Relabeling)
    (injective : Set.InjOn r.site {site | site ∈ sitesOf (Stmt.nodesAll ss)})
    {known : Std.TreeMap Site Nat}
    (fresh : ∀ site ∈ (bindingsOf (analyze ss)).map Binding.site, known[r.site site]? = none)
    (errors : scopeErrorsOf (analyze ss) = []) {v : Visit} (hv : v ∈ visits ss) {site : Site}
    {name : Token} (refers : v.node.reference? = some (site, name)) :
    (recorded known ((bindingsOf (analyze ss)).map (Binding.relabel r)))[r.site site]? =
      v.scopes.distance? name.lexeme := by
  have binding : ⟨site, name.lexeme, v.scopes.distance? name.lexeme⟩ ∈ bindingsOf (analyze ss) := by
    rw [(records_analyze ss).complete errors]
    exact List.mem_filterMap.2 ⟨v, hv, by simp [Visit.binding?, refers]⟩
  have within (site : Site) (hs : site ∈ (bindingsOf (analyze ss)).map Binding.site) :
      site ∈ sitesOf (Stmt.nodesAll ss) := (sites_analyze_sublist ss).subset hs
  have nodup : (((bindingsOf (analyze ss)).map (Binding.relabel r)).map Binding.site).Nodup := by
    have sites := List.Nodup.map_on (fun site hs site' hs' =>
      injective (within site hs) (within site' hs')) h.bindings_nodup
    rw [List.map_map] at sites ⊢
    exact sites
  exact getElem?_recorded_of_mem known nodup (List.mem_map_of_mem binding)
    (fresh site (List.mem_map_of_mem binding))

/-- Nothing is recorded outside of the sites of the chunk. -/
theorem getElem?_recorded_of_other (h : Numbered first next ss) (r : Relabeling)
    (known : Std.TreeMap Site Nat) (site : Site)
    (other : ∀ site', first ≤ site' → site' < next → r.site site' ≠ site) :
    (recorded known ((bindingsOf (analyze ss)).map (Binding.relabel r)))[site]? =
      known[site]? := by
  refine getElem?_recorded_of_not_mem known fun hs => ?_
  rw [List.map_map, List.mem_map] at hs
  obtain ⟨b, hb, rfl⟩ := hs
  have range := h.bindings_sites (List.mem_map_of_mem hb)
  exact other b.site range.1 range.2 rfl

end Numbered

end Lox
