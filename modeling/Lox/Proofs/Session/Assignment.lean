import Lox.Proofs.Session.Watched

/-!
# Assignments to local variables

An assignment writes at the distance that was recorded for it.  That there is something to write to
is settled by the text, but for one case: the static analysis lets an assignment stand in the
initializer of the very variable that it refers to, which is declared there but not made yet.
Everywhere else the write succeeds (`written_throughout`).
-/

namespace Lox

/-- An assignment that starts on a machine, where the visits `known` were made before, writes to the
environment at its distance once its value is evaluated.  The initializer of the variable itself is
excepted. -/
def Written (known : List Visit) (n : Node) (m : Machine) : Prop :=
  ∀ site name value, n = .expr (.assign site name value) →
    ∃ v ∈ known, v.node = n ∧ m.distances[site]? = v.scopes.distance? name.lexeme ∧
      ∀ d, m.distances[site]? = some d → v.scopes.isBegun name.lexeme = false →
        ∀ fuel a m', evaluate fuel value m = .ok a m' →
          ∃ holder, m'.heap.forest.ancestor? m'.current d = some holder ∧
            (m'.heap.forest.own? holder name.lexeme).isSome ∧
            Run.overwrite site name a m' = Run.define holder name.lexeme a m'

/-- What a name refers to is declared completely, unless the name stands in its initializer. -/
theorem Visit.Settled.complete_of_ready {v : Visit} (settled : v.Settled) {name : String} {d : Nat}
    (h : v.scopes.distance? name = some d) (ready : v.scopes.isBegun name = false) :
    ∃ scope, v.scopes[d]? = some scope ∧ scope.get? name = some .complete := by
  obtain ⟨scope, declaration, hd, held⟩ := Scopes.get?_of_distance? h
  refine ⟨scope, hd, ?_⟩
  cases declaration with
  | complete => exact held
  | begun =>
      obtain ⟨rfl, -⟩ := settled.begun d scope name hd held
      obtain ⟨outer, hs⟩ : ∃ outer, v.scopes = scope :: outer := by
        cases hs : v.scopes with
        | nil => simp [hs] at hd
        | cons inner outer => exact ⟨outer, by simpa [hs] using hd⟩
      simp [hs, Scopes.isBegun, held] at ready

/-- Only the name in a superclass clause is visited while a class is pending. -/
theorem Visit.Settled.pending_of_assign {v : Visit} (settled : v.Settled) {site : Site}
    {name : Token} {value : Expr} (node : v.node = .expr (.assign site name value)) :
    v.pending = none := by
  cases pending : v.pending with
  | none => rfl
  | some p =>
      obtain ⟨_, _, other, -⟩ := settled.pending p pending
      rw [node] at other
      cases other

/-- A write at a known distance. -/
theorem Run.overwrite_of_holderAt? {m : Machine} {site : Site} {name : Token} {d : Nat}
    (known : m.distances[site]? = some d)
    (held : (m.heap.forest.holderAt? m.current d name.lexeme).isSome) (a : Value) :
    ∃ holder, m.heap.forest.ancestor? m.current d = some holder ∧
      (m.heap.forest.own? holder name.lexeme).isSome ∧
      Run.overwrite site name a m = Run.define holder name.lexeme a m := by
  obtain ⟨holder, found⟩ := Option.isSome_iff_exists.1 held
  obtain ⟨reached, own⟩ := Option.filter_eq_some_iff.1 found
  refine ⟨holder, reached, own, ?_⟩
  have holds : m.holderAt? site name.lexeme = some holder := by
    rw [Machine.holderAt?, known]
    exact found
  rw [Run.overwrite, Run.get_bind, holds]

namespace Comparison

/-- A watcher that looks at the first of two runs finds that assignments write. -/
theorem watches_written {c : Comparison} {known : List Visit} (sources : Sources known)
    (visited : ∀ r v, c.visited r v → v ∈ known) (otherwise : Run Unit) :
    c.correspondence.Watches (Run.check (Written known) otherwise) Run.unwatched where
  expr := by
    intro w l e₁ e₂ related place m₁ m₂ matched
    suffices holds : Written known (.expr e₁) m₁ by
      rw [Run.check, if_pos holds]
      exact .ok (World.le_refl w) matched trivial
    intro site name value hn
    cases hn
    have inside : ∃ value₂, c.correspondence.expr l value value₂ := by
      cases c.closed.expr related with
      | assign _ h => exact ⟨_, h⟩
    obtain ⟨r, -, -, pending, S, S', sees, rfl, seen⟩ := related
    have self : (⟨S, pending, .expr (.assign site name value)⟩ : Visit) ∈
        (Expr.assign site name value).visits pending S :=
      List.mem_map_of_mem (Expr.self_mem_nodes _)
    have recorded := c.recorded r _ (seen _ self)
    have settled := sources.settled _ (visited r _ (seen _ self))
    have told : m₁.distances[site]? = S.distance? name.lexeme := by
      rw [matched.distances₁]
      exact recorded.distance site name rfl
    refine ⟨_, visited r _ (seen _ self), rfl, told, ?_⟩
    intro d hd ready fuel a m' ran
    obtain ⟨scope, hs, complete⟩ := settled.complete_of_ready (told.symm.trans hd) ready
    have same : pending = none := settled.pending_of_assign rfl
    obtain ⟨scope', hs', complete'⟩ := sees.complete hs complete (by simp [same])
    obtain ⟨value₂, related⟩ := inside
    have outcome := (Correspondence.simulates c.closed .unwatched fuel).1 related place _ _ matched
    rw [(watched_unwatched fuel).1, ran] at outcome
    generalize evaluate fuel value₂ m₂ = y at outcome
    cases outcome with
    | @ok w' _ _ _ _ le matched' _ =>
        have known : m'.distances[site]? = some d := by
          rw [matched'.distances₁, ← matched.distances₁]
          exact hd
        apply Run.overwrite_of_holderAt? known
        rw [matched'.forest₁, matched'.current₁]
        exact World.Chain.holderAt? (place.mono le) hs' complete'
  stmt := by
    intro w l after s₁ s₂ _ _ m₁ m₂ matched
    have holds : Written known (.stmt s₁) m₁ := by
      intro _ _ _ hn
      cases hn
    rw [Run.check, if_pos holds]
    exact .ok (World.le_refl w) matched trivial

end Comparison

/-- Whatever chunks a session has run, while it executes another one every assignment with a
distance finds its variable, unless it stands in the initializer of that variable. -/
theorem written_throughout (sink : Sink) (clock : Nat → Float) {fuel : Nat} {earlier : List String}
    {reports : List Report} {s : Session}
    (ran : (Session.initial sink clock).runAll fuel earlier = some (reports, s)) {source : String}
    (clean : (s.chunk source).Clean) (fuel' : Nat) :
    s.run fuel' source = Session.perform fuel' (s.chunk source).statements (s.chunk source).nextSite
        (s.prepared (s.chunk source)) ∧
      Throughout (Written (visitsOf 0 (earlier ++ [source]))) fuel' (s.chunk source).statements
        (s.prepared (s.chunk source)) := by
  constructor
  · exact s.run_of_clean clean
  · apply throughout_of_watches sink clock ran clean
    intro c visited otherwise
    exact Comparison.watches_written (sources_visitsOf 0 _) visited otherwise

/-- A chunk whose function assigns to a parameter and to a variable around it. -/
theorem written_throughout_counter :
    ∃ reports s, (Session.initial .unlimited fun _ => 0).runAll 20
        ["fun f(x) \x7b var y; fun g() \x7b y = x = 1; \x7d return g; \x7d"] = some (reports, s) ∧
      (s.chunk "f(2)();").Clean ∧
      Throughout (Written (visitsOf 0
        ["fun f(x) \x7b var y; fun g() \x7b y = x = 1; \x7d return g; \x7d", "f(2)();"])) 20
        (s.chunk "f(2)();").statements (s.prepared (s.chunk "f(2)();")) := by
  have accepted : ((Session.initial .unlimited fun _ => 0).runAll 20
      ["fun f(x) \x7b var y; fun g() \x7b y = x = 1; \x7d return g; \x7d"]).any
        fun p => decide (p.2.chunk "f(2)();").Clean := by decide +kernel
  obtain ⟨⟨reports, s⟩, ran, clean⟩ := (Option.any_eq_true _ _).1 accepted
  have clean := of_decide_eq_true clean
  exact ⟨reports, s, ran, clean, (written_throughout .unlimited _ ran clean 20).2⟩

/-- An assignment in the initializer of its own variable passes the static analysis with a distance,
and there is nothing to write to when it is executed. -/
theorem assignment_in_own_initializer :
    let s := Session.initial .unlimited fun _ => 0
    let source := "\x7b var a = a = 1; \x7d"
    let name : Token := ⟨.identifier, "a", 1⟩
    (s.chunk source).Clean ∧
      bindingsOf (analyze (s.chunk source).statements) = [⟨1, "a", some 0⟩] ∧
      (s.run 20 source).map Prod.fst =
        some ⟨"", ⟨[], some (RuntimeError.diagnostic ⟨.undefinedVariable, name⟩)⟩⟩ := by
  decide +kernel

end Lox
