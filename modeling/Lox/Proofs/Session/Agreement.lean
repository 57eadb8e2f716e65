import Lox.Proofs.Scope.Settled
import Lox.Proofs.Session.Rejection

/-!
# Static and dynamic scopes

The static analysis counts scopes in the text of a program, execution counts environments outward
from the current one.  `Visit.Agrees` says that at some moment of an execution these are as many,
and that each environment holds what is declared completely in its scope.  It holds whenever a node
starts to be evaluated or executed (`resolved_throughout`), whatever chunks the session has run
before, so that names are found at the distances that were recorded for them.

A session is compared with itself for this: the worlds of the comparison carry the invariant, and a
watcher that looks at the first of the two runs finds the nodes at their visits.
-/

namespace Lox

/-- The environments around are as the scopes of the visit tell: one for each scope and then that of
the whole program. -/
structure Visit.Agrees (v : Visit) (m : Machine) : Prop where
  outermost : m.heap.forest.ancestor? m.current v.scopes.length = some m.globals
  root : m.heap.forest.enclosing? m.globals = none
  /-- The name of a class is declared before its superclass clause, and defined after it. -/
  holds : ∀ i scope name, v.scopes[i]? = some scope → scope.get? name = some .complete →
    ¬ (i = 0 ∧ v.pending = some name) → (m.heap.forest.holderAt? m.current i name).isSome
  distance : ∀ site name, v.node.reference? = some (site, name) →
    m.distances[site]? = v.scopes.distance? name.lexeme

/-- A node that starts on a machine, where the visits `known` were made before. -/
structure Resolved (known : List Visit) (n : Node) (m : Machine) : Prop where
  visited : ∃ v ∈ known, v.node = n ∧ v.Agrees m
  unique : ∀ site name, n.reference? = some (site, name) →
    ∀ u ∈ known, ∀ v ∈ known, u.node = n → v.node = n → u = v
  /-- What has a distance is found when it is read. -/
  reads : ∀ site name d, n.Reads site name → m.distances[site]? = some d →
    (m.heap.forest.getAt? m.current d name.lexeme).isSome
  /-- What has no distance is looked for in the environment of the whole program only. -/
  whole : ∀ site name, n.reference? = some (site, name) → m.distances[site]? = none →
    m.valueAt? site name.lexeme = m.heap.forest.own? m.globals name.lexeme ∧
      m.holderAt? site name.lexeme =
        if (m.heap.forest.own? m.globals name.lexeme).isSome then some m.globals else none

/-- What is read at a distance is found if an environment there holds it. -/
theorem Forest.isSome_getAt? (f : Forest) (id : EnvironmentId) (d : Nat) (name : String) :
    (f.getAt? id d name).isSome = (f.holderAt? id d name).isSome := by
  rw [Forest.getAt?, Forest.holderAt?]
  cases f.ancestor? id d with
  | none => rfl
  | some e => cases h : f.own? e name <;> simp [h]

/-- What is seen of the scopes of a visit is complete there. -/
theorem Sees.complete {pending : Option String} {S S' : Scopes} (h : Sees pending S S') {i : Nat}
    {scope : Scope} {name : String} (hi : S[i]? = some scope)
    (complete : scope.get? name = some .complete) (seen : ¬ (i = 0 ∧ pending = some name)) :
    ∃ scope', S'[i]? = some scope' ∧ scope'.get? name = some .complete := by
  cases h with
  | all => exact ⟨scope, hi, complete⟩
  | clause S declared =>
      cases S with
      | nil => cases hi
      | cons inner S =>
          cases i with
          | succ i => exact ⟨scope, hi, complete⟩
          | zero =>
              have ne : name ≠ declared.lexeme := by
                rintro rfl
                exact seen ⟨rfl, rfl⟩
              refine ⟨_, rfl, ?_⟩
              rw [← Option.some.inj hi, Table.get?_set_of_ne _ _ ne] at complete
              exact complete

/-- The node of a visit with a site has no other visit. -/
theorem eq_of_node_eq {vs : List Visit} (nodup : (sitesOf (vs.map Visit.node)).Nodup) {site : Site}
    {name : Token} {u v : Visit} (hu : u ∈ vs) (hv : v ∈ vs)
    (refers : u.node.reference? = some (site, name)) (same : u.node = v.node) : u = v := by
  have mem {u : Visit} {vs : List Visit} (hu : u ∈ vs) (h : u.node.reference? = some (site, name)) :
      site ∈ sitesOf (vs.map Visit.node) :=
    mem_sitesOf.2 ⟨u.node, List.mem_map_of_mem hu, name, h⟩
  have refers' : v.node.reference? = some (site, name) := same ▸ refers
  induction vs with
  | nil => cases hu
  | cons w vs ih =>
      rw [List.map_cons, ← List.singleton_append, sitesOf_append, List.nodup_append] at nodup
      obtain ⟨-, rest, apart⟩ := nodup
      have head (h : w.node.reference? = some (site, name))
          (hv : site ∈ sitesOf (vs.map Visit.node)) : False := by
        refine apart site ?_ site hv rfl
        exact mem_sitesOf.2 ⟨w.node, List.mem_singleton_self _, name, h⟩
      rcases List.mem_cons.1 hu with hw | hu'
      · rcases List.mem_cons.1 hv with hw' | hv'
        · rw [hw, hw']
        · exact (head (hw ▸ refers) (mem hv' refers')).elim
      · rcases List.mem_cons.1 hv with hw' | hv'
        · exact (head (hw' ▸ refers') (mem hu' refers)).elim
        · exact ih rest hu' hv'

/-- Visits of programs that were read and analyzed without errors. -/
structure Sources (known : List Visit) : Prop where
  settled : ∀ v ∈ known, v.Settled
  ready : ∀ v ∈ known, v.Ready
  sound : ∀ v ∈ known, v.node.Sound
  sites : (sitesOf (known.map Visit.node)).Nodup

namespace Comparison

variable {c : Comparison} {r : Relabeling} {known : List Visit} {w : World} {m₁ m₂ : Machine}

/-- The environments agree with a visit where its scopes are seen. -/
theorem agrees (matched : c.correspondence.Matched w m₁ m₂) {v : Visit} (visited : c.visited r v)
    {S : Scopes} (sees : Sees v.pending v.scopes S) (place : w.At (.plain S)) : v.Agrees m₁ where
  outermost := by
    rw [matched.forest₁, matched.current₁, matched.globals₁, ← sees.length]
    exact World.Chain.ancestor?_length place
  root := by
    rw [matched.forest₁, matched.globals₁]
    exact matched.sound.root
  holds i scope name hi complete seen := by
    obtain ⟨scope', hi', complete'⟩ := sees.complete hi complete seen
    rw [matched.forest₁, matched.current₁]
    exact World.Chain.holderAt? place hi' complete'
  distance site name refers := by
    rw [matched.distances₁]
    exact (c.recorded r v visited).distance site name refers

theorem resolved_of_agrees (sources : Sources known) {v : Visit} (hv : v ∈ known) {m : Machine}
    (agrees : v.Agrees m) : Resolved known v.node m where
  visited := ⟨v, hv, rfl, agrees⟩
  unique site name refers u hu u' hu' same same' := by
    have refers' : u.node.reference? = some (site, name) := same ▸ refers
    exact eq_of_node_eq sources.sites hu hu' refers' (same.trans same'.symm)
  reads site name d reads hd := by
    have told := agrees.distance site name reads.reference?
    obtain ⟨scope, hs, complete, ne⟩ := (sources.settled v hv).complete (sources.ready v hv)
      (sources.sound v hv) reads (told.symm.trans hd)
    rw [Forest.isSome_getAt?]
    exact agrees.holds d scope name.lexeme hs complete fun pending => ne pending.2
  whole site name refers hd := by
    rw [Machine.valueAt?, Machine.holderAt?, hd]
    exact ⟨Forest.get?_of_root _ agrees.root _, Forest.holder?_of_root _ agrees.root _⟩

/-- A watcher that looks at the first of two runs finds the nodes at their visits. -/
theorem watches (sources : Sources known) (visited : ∀ r v, c.visited r v → v ∈ known)
    (otherwise : Run Unit) :
    c.correspondence.Watches (Run.check (Resolved known) otherwise) Run.unwatched where
  expr := by
    rintro w l e₁ e₂ ⟨r, -, -, pending, S, S', sees, rfl, seen⟩ place m₁ m₂ matched
    have self : (⟨S, pending, .expr e₁⟩ : Visit) ∈ e₁.visits pending S :=
      List.mem_map_of_mem (Expr.self_mem_nodes e₁)
    have holds : Resolved known (.expr e₁) m₁ :=
      resolved_of_agrees sources (visited r _ (seen _ self))
        (agrees matched (seen _ self) sees place)
    rw [Run.check, if_pos holds]
    exact .ok (World.le_refl w) matched trivial
  stmt := by
    rintro w l after s₁ s₂ ⟨r, -, -, S, rfl, -, seen⟩ place m₁ m₂ matched
    have self := Stmt.self_mem_visits S s₁
    have holds : Resolved known (.stmt s₁) m₁ :=
      resolved_of_agrees sources (visited r _ (seen _ self))
        (agrees matched (seen _ self) (.all S) place)
    rw [Run.check, if_pos holds]
    exact .ok (World.le_refl w) matched trivial

theorem eq_of_forall₂ {P : α → α → Prop} {xs ys : List α} (h : List.Forall₂ P xs ys)
    (eq : ∀ x y, P x y → x = y) : xs = ys := by
  have same := h.imp eq
  rwa [List.forall₂_eq_eq_eq] at same

theorem eq_of_declMatch (same : ∀ r, c.relabels r → r = .same) {l : Layout} {d₁ d₂ : FunctionDecl}
    (h : c.correspondence.decl l d₁ d₂) : d₂ = d₁ := by
  obtain ⟨r, hr, hd, -⟩ := h
  rwa [same r hr, FunctionDecl.relabel_same] at hd

/-- Where nothing is relabeled, matched machines are the same. -/
theorem eq_of_matched (same : ∀ r, c.relabels r → r = .same) (before : c.before = "")
    (distances : c.second = c.first) (matched : c.correspondence.Matched w m₁ m₂) : m₁ = m₂ := by
  have forest : m₁.heap.forest = m₂.heap.forest := by
    rw [matched.forest₁, matched.forest₂]
    exact (Forest.rename_one _ _ matched.sound.admits).symm
  have functions : m₁.heap.functions = m₂.heap.functions := by
    refine Array.toList_inj.1 (eq_of_forall₂ matched.functions ?_)
    rintro ⟨d₁, _, _⟩ ⟨d₂, _, _⟩ ⟨closure, kind, l, -, hd⟩
    obtain rfl : d₂ = d₁ := eq_of_declMatch same hd
    simp_all
  have classes : m₁.heap.classes = m₂.heap.classes := by
    refine Array.toList_inj.1 (eq_of_forall₂ matched.classes ?_)
    rintro ⟨name₁, above₁, ms₁⟩ ⟨name₂, above₂, ms₂⟩ ⟨name, above, methods⟩
    obtain rfl : ms₁ = ms₂ := by
      refine eq_of_forall₂ methods ?_
      rintro ⟨n₁, d₁, _, _⟩ ⟨n₂, d₂, _, _⟩ ⟨hn, closure, kind, l, -, hd⟩
      obtain rfl : d₂ = d₁ := eq_of_declMatch same hd
      simp_all
    simp_all
  have heap : m₁.heap = m₂.heap := by
    have objects := matched.objects
    have natives := matched.natives
    cases h₁ : m₁.heap
    cases h₂ : m₂.heap
    simp_all
  have sink : m₁.sink = m₂.sink := by
    rw [matched.sink, show c.correspondence.before = "" from before, String.empty_append]
  have known : m₁.distances = m₂.distances := by
    rw [matched.distances₁, matched.distances₂]
    exact distances.symm
  have globals : m₁.globals = m₂.globals := matched.globals₁.trans matched.globals₂.symm
  have current : m₁.current = m₂.current := matched.current₁.trans matched.current₂.symm
  have clock := matched.clock
  have readings := matched.readings
  cases m₁
  cases m₂
  simp_all

end Comparison

/-- The nodes of a chunk are as the grammar makes them of its text. -/
theorem Chunk.sound (source : String) (firstSite : Site) :
    ∀ n ∈ Stmt.nodesAll (Chunk.read source firstSite).statements, n.Sound := fun n hn =>
  ⟨(Chunk.numbered source firstSite).formed n hn,
    fun _ ht => spelled_of_mem_scan (Chunk.mem_scan_of_mem_tokens hn ht)⟩

theorem Chunk.sites_visits_sublist (chunk : Chunk) :
    (sitesOf (chunk.visits.map Visit.node)).Sublist (sitesOf (Stmt.nodesAll chunk.statements)) := by
  rw [Chunk.visits]
  split
  · rw [Lox.visits, Stmt.map_node_visitsAll]
  · exact List.nil_sublist _

/-- The visits of the chunks of a session, those that are executed. -/
def visitsOf (firstSite : Site) (sources : List String) : List Visit :=
  (Chunk.readAll firstSite sources).flatMap Chunk.visits

theorem mem_visits_sources {source : String} {firstSite : Site} {v : Visit}
    (hv : v ∈ (Chunk.read source firstSite).visits) : v.Settled ∧ v.Ready ∧ v.node.Sound := by
  have sound := Chunk.sound source firstSite
  rw [Chunk.visits] at hv
  split at hv
  · rename_i clean
    exact ⟨visits_settled sound clean.2 v hv, (records_analyze _).ready clean.2 v hv,
      sound v.node (node_mem_of_mem_visits hv)⟩
  · cases hv

theorem visitsOf_cons (firstSite : Site) (source : String) (sources : List String) :
    visitsOf firstSite (source :: sources) = (Chunk.read source firstSite).visits ++
      visitsOf (Chunk.read source firstSite).nextSite sources := by
  rw [visitsOf, Chunk.readAll, List.flatMap_cons]
  rfl

theorem mem_visitsOf_sources {firstSite : Site} {sources : List String} {v : Visit}
    (hv : v ∈ visitsOf firstSite sources) : v.Settled ∧ v.Ready ∧ v.node.Sound := by
  induction sources generalizing firstSite with
  | nil => cases hv
  | cons source sources ih =>
      rw [visitsOf_cons, List.mem_append] at hv
      exact hv.elim mem_visits_sources ih

theorem le_of_mem_sites_visitsOf {firstSite : Site} {sources : List String} {site : Site}
    (hs : site ∈ sitesOf ((visitsOf firstSite sources).map Visit.node)) : firstSite ≤ site := by
  induction sources generalizing firstSite with
  | nil => cases hs
  | cons source sources ih =>
      have numbered := Chunk.numbered source firstSite
      rw [visitsOf_cons, List.map_append, sitesOf_append, List.mem_append] at hs
      rcases hs with hs | hs
      · exact (numbered.sites site ((Chunk.sites_visits_sublist _).subset hs)).1
      · exact Nat.le_trans numbered.le (ih hs)

theorem sources_visitsOf (firstSite : Site) (sources : List String) :
    Sources (visitsOf firstSite sources) where
  settled _ hv := (mem_visitsOf_sources hv).1
  ready _ hv := (mem_visitsOf_sources hv).2.1
  sound _ hv := (mem_visitsOf_sources hv).2.2
  sites := by
    induction sources generalizing firstSite with
    | nil => exact List.nodup_nil
    | cons source sources ih =>
        have numbered := Chunk.numbered source firstSite
        have sub := (Chunk.read source firstSite).sites_visits_sublist
        rw [visitsOf_cons, List.map_append, sitesOf_append, List.nodup_append]
        refine ⟨numbered.nodup.sublist sub, ih _, fun site hs site' hs' => ?_⟩
        have before := (numbered.sites site (sub.subset hs)).2
        exact Nat.ne_of_lt (Nat.lt_of_lt_of_le before (le_of_mem_sites_visitsOf hs'))

/-- Whatever chunks a session has run, while it executes another one the environments agree with the
scopes of the static analysis whenever a node starts. -/
theorem resolved_throughout (sink : Sink) (clock : Nat → Float) {fuel : Nat} {earlier : List String}
    {reports : List Report} {s : Session}
    (ran : (Session.initial sink clock).runAll fuel earlier = some (reports, s)) {source : String}
    (clean : (s.chunk source).Clean) (fuel' : Nat) :
    s.run fuel' source = Session.perform fuel' (s.chunk source).statements (s.chunk source).nextSite
        (s.prepared (s.chunk source)) ∧
      Throughout (Resolved (visitsOf 0 (earlier ++ [source]))) fuel' (s.chunk source).statements
        (s.prepared (s.chunk source)) := by
  refine ⟨s.run_of_clean clean, fun otherwise => ?_⟩
  have itself := (Alike.initial sink clock).runAll fuel earlier
  rw [ran] at itself
  rcases itself with stuck | ⟨_, _, _, c, h₁, h₂, alike⟩
  · cases stuck.1
  cases h₁
  cases h₂
  have numbered : Numbered s.nextSite (s.chunk source).nextSite (s.chunk source).statements :=
    Chunk.numbered source s.nextSite
  obtain ⟨c', relabels, visited, alike⟩ := alike.record numbered
  rw [Chunk.shift_zero] at alike
  have known : [] ++ (Chunk.readAll 0 earlier).flatMap Chunk.visits ++ (s.chunk source).visits =
      visitsOf 0 (earlier ++ [source]) := by
    rw [visitsOf, show (0 : Site) = (Session.initial sink clock).nextSite from rfl,
      Session.readAll_append_of_runAll ran, List.flatMap_append]
    simp [Chunk.readAll, Session.chunk]
  rw [show (Session.initial sink clock).nextSite = 0 from rfl, known] at alike
  obtain ⟨w, place, matched⟩ := alike.matched
  rw [Alike.prepared_emptied] at matched
  have statements : c'.correspondence.Statements .top (s.chunk source).statements
      (Stmt.relabelAll .same (s.chunk source).statements) :=
    Comparison.statements_of_chunk relabels fun v hv =>
      visited v (by rwa [Chunk.visits, if_pos clean])
  rw [Stmt.relabelAll_same] at statements
  have same : ∀ r, c'.relabels r → r = .same := fun r hr => (alike.relabels r hr).elim id id
  have distances : c'.second = c'.first := matched.distances₂.symm.trans matched.distances₁
  have outcome := Correspondence.Sim.executeAllWatched c'.closed
    (Comparison.watches (sources_visitsOf 0 _) alike.visited otherwise) fuel' statements place
    _ _ matched
  rw [executeAllWatched_unwatched] at outcome
  generalize executeAllWatched (Run.check (Resolved _) otherwise) fuel' _ _ = x at outcome
  generalize executeAll fuel' _ _ = y at outcome
  cases outcome with
  | ok _ matched' _ => rw [Comparison.eq_of_matched same alike.before distances matched']
  | error _ matched' halts =>
      rw [Comparison.eq_of_matched same alike.before distances matched',
        Alike.eq_of_haltMatch alike.culprit halts]

/-- A chunk that calls a method which an earlier chunk has declared. -/
theorem resolved_throughout_method_call :
    ∃ reports s, (Session.initial .unlimited fun _ => 0).runAll 20
        ["class A \x7b f(x) \x7b var y = x; return y; \x7d \x7d"] = some (reports, s) ∧
      (s.chunk "print A().f(nil);").Clean ∧
      Throughout (Resolved (visitsOf 0
          ["class A \x7b f(x) \x7b var y = x; return y; \x7d \x7d", "print A().f(nil);"]))
        20 (s.chunk "print A().f(nil);").statements
        (s.prepared (s.chunk "print A().f(nil);")) := by
  have accepted : ((Session.initial .unlimited fun _ => 0).runAll 20
      ["class A \x7b f(x) \x7b var y = x; return y; \x7d \x7d"]).any
        fun p => decide (p.2.chunk "print A().f(nil);").Clean := by decide +kernel
  obtain ⟨⟨reports, s⟩, ran, clean⟩ := (Option.any_eq_true _ _).1 accepted
  have clean := of_decide_eq_true clean
  exact ⟨reports, s, ran, clean, (resolved_throughout .unlimited _ ran clean 20).2⟩

end Lox
