import Lox.Proofs.Scope.Super
import Lox.Proofs.Evaluation.Receiver
import Lox.Proofs.Session.Watched

/-!
# Calls of inherited methods

Whenever `super` is evaluated in a session, it stands for the class above the one whose table holds
the method around it, and the receiver is an object of that class or of one below it
(`super_throughout`).  The static analysis says at which distances these are, and the accounts of
receivers say that they belong together.
-/

namespace Lox

open Run

/-- What `super` stands for at a site on a machine: the receiver `r` of the method around the
expression, and the class `above` that of the method. -/
structure Dispatch (m : Machine) (site : Site) (keyword method : Token) (d : Nat) (r : Receiver)
    (above : ClassId) : Prop where
  distance : m.distances[site]? = some (d + 1)
  super : m.heap.forest.getAt? m.current (d + 1) superName = some (.class above)
  receiver : m.heap.forest.getAt? m.current d receiverName = some (.object r.object)
  /-- The expression is a part of the method that was bound to the receiver. -/
  encloses : .expr (.super site keyword method) ∈ r.method.declaration.nodes
  closure : m.heap.forest.ancestor? m.current (d + 1) = some r.method.closure
  owns : m.heap.Owns r.holder r.method
  /-- No other class has methods that are closed over the same environment. -/
  only : ∀ id g, m.heap.Owns id g → g.closure = r.method.closure → id = r.holder
  superclass : ∃ c, m.heap.classes[r.holder.index]? = some c ∧ c.superclass = some above
  object : ∃ o, m.heap.objects[r.object.index]? = some o ∧ m.heap.Below o.classId r.holder
  result : superMethod site keyword method m =
    (m.heap.method? above method.lexeme).elim (raise .undefinedProperty method)
      (fun f => boundMethod f r.object) m

/-- A node that starts on a machine: if it is `super`, it is dispatched. -/
def Dispatched (n : Node) (m : Machine) : Prop :=
  ∀ site keyword method, n = .expr (.super site keyword method) →
    ∃ d r above, Dispatch m site keyword method d r above

/-- What `super` evaluates to where its receiver and its class are found. -/
theorem superMethod_of_found {m : Machine} {site : Site} {d : Nat} {above : ClassId}
    {receiver : ObjectId} (distance : m.distances[site]? = some (d + 1))
    (super : m.heap.forest.getAt? m.current (d + 1) superName = some (.class above))
    (object : m.heap.forest.getAt? m.current d receiverName = some (.object receiver))
    (keyword method : Token) :
    superMethod site keyword method m =
      (m.heap.method? above method.lexeme).elim (raise .undefinedProperty method)
        (fun f => boundMethod f receiver) m := by
  rw [superMethod, Run.get_bind, distance]
  dsimp only
  rw [super]
  dsimp only
  rw [object]
  cases m.heap.method? above method.lexeme <;> rfl

/-- The environments that are found at the distances of a visit belong together. -/
theorem Account.dispatched {s : Account} {known : List Visit}
    (inheriting : ∀ v ∈ known, v.Settled ∧ v.Inheriting) {n : Node} (admits : s.Admits n)
    (resolved : Resolved known n s.machine) : Dispatched n s.machine := by
  intro site keyword method hn
  obtain ⟨v, hv, node, agrees⟩ := resolved.visited
  obtain ⟨settled, placed⟩ := inheriting v hv
  rw [hn] at node
  obtain ⟨d, distance, inner, outer⟩ := (placed site keyword method node).distance?
  have pending : v.pending = none := by
    cases pending : v.pending with
    | none => rfl
    | some p =>
        obtain ⟨_, _, other, -⟩ := settled.pending p pending
        rw [node] at other
        cases other
  have self := admits.self
  rw [hn] at self
  have word : keyword.lexeme = superName :=
    (self.spelled keyword List.mem_cons_self).keyword .super self.formed
  have held (i : Nat) (word : String) (scope : v.scopes[i]? = some (Scope.holding word)) :
      (s.machine.heap.forest.getAt? s.machine.current i word).isSome := by
    rw [Forest.isSome_getAt?]
    refine agrees.holds i _ word scope ?_ ?_
    · simp [Scope.holding, Table.get?]
    · simp [pending]
  obtain ⟨r, above, finds⟩ := s.books.finds (held d receiverName inner)
    (held (d + 1) superName outer)
  have told : s.machine.distances[site]? = some (d + 1) := by
    rw [agrees.distance site keyword (by rw [node]; rfl), word]
    exact distance
  obtain ⟨e, reached, entered, bound⟩ := finds.known
  refine ⟨d, r, above, told, finds.super, finds.receiver, ?_, finds.closure, bound.method, ?_,
    finds.superclass, bound.object, superMethod_of_found told finds.super finds.receiver _ _⟩
  · refine admits.covers.inside d e r reached entered _ ?_
    rw [hn]
    exact Expr.self_mem_nodes _
  · intro id g owns closure
    refine s.books.apart r.holder id r.method g bound.method owns closure ?_
    have super := held (d + 1) superName outer
    rw [Forest.getAt?, finds.closure] at super
    exact super

/-! ### Sessions -/

/-- A machine between two chunks: its environment is that of the whole program. -/
structure Machine.Idle (m : Machine) : Prop where
  made : m.current.index < m.heap.forest.environments.size
  root : m.heap.forest.enclosing? m.current = none
  receiver : m.heap.forest.own? m.current receiverName = none
  super : m.heap.forest.own? m.current superName = none

theorem Machine.Idle.of_heap {m m' : Machine} (idle : m.Idle) (heap : m'.heap = m.heap)
    (current : m'.current = m.current) : m'.Idle := by
  constructor <;> rw [heap, current]
  · exact idle.made
  · exact idle.root
  · exact idle.receiver
  · exact idle.super

namespace Account

variable {s t : Account}

theorem idle_later (idle : s.machine.Idle) (later : discipline.Later s t) : t.machine.Idle := by
  obtain ⟨follows, current⟩ := later
  constructor <;> rw [current]
  · exact Nat.lt_of_lt_of_le idle.made follows.size
  · exact (follows.enclosing _ idle.made).trans idle.root
  · exact (follows.receiver _ idle.made).trans idle.receiver
  · exact (follows.super _ idle.made).trans idle.super

/-- The statements of a program may start. -/
theorem admits_of_idle (idle : s.machine.Idle) {ss : List Stmt}
    (sound : ∀ n ∈ Stmt.nodesAll ss, n.Sound) : ∀ st ∈ ss, s.Admits (.stmt st) := by
  intro st hst
  refine ⟨⟨idle.made, ?_⟩, idle.receiver, idle.super, fun n hn => sound n ?_⟩
  · intro d e r reached known
    cases d with
    | zero =>
        obtain rfl := Option.some.inj reached
        have held := (s.books.bound _ r known).held
        rw [idle.receiver] at held
        cases held
    | succ d =>
        rw [Forest.ancestor?, idle.root] at reached
        cases reached
  · rw [Stmt.nodesAll_eq_flatMap]
    exact List.mem_flatMap.2 ⟨st, hst, hn⟩

end Account

/-- The first environment is empty and not enclosed by any. -/
theorem Forest.environment?_first {e : EnvironmentId} {c : Environment}
    (found : (Forest.empty.grow none).environment? e = some c) : c = ⟨[], none⟩ := by
  have member : c ∈ #[(⟨[], none⟩ : Environment)] := Array.mem_of_getElem? found
  exact Array.mem_singleton.1 member

/-- Nothing is bound before anything is executed. -/
theorem Books.initial (sink : Sink) (clock : Nat → Float) :
    Books (Machine.initial sink clock).heap fun _ => none where
  closed e outer encloses := by
    rw [Machine.initial, Forest.enclosing?_define] at encloses
    obtain ⟨c, found, encloses⟩ := Option.bind_eq_some_iff.1 encloses
    rw [Forest.environment?_first found] at encloses
    cases encloses
  bound _ _ known := by cases known
  entered e held := by
    rw [Machine.initial, Forest.own?_define_of_ne _ _ (Or.inr (by decide)), Forest.own?,
      Option.isSome_bind, Option.any_eq_true] at held
    obtain ⟨c, found, held⟩ := held
    rw [Forest.environment?_first found] at held
    cases held
  functions _ _ found := by simp [Machine.initial, Heap.empty] at found
  initializers _ _ found := by simp [Machine.initial, Heap.empty] at found
  methods _ _ found := by simp [Machine.initial, Heap.empty] at found
  apart _ _ _ _ owns := by
    obtain ⟨_, _, found, -⟩ := owns
    simp [Machine.initial, Heap.empty] at found

namespace Session

def Accounted (s : Session) : Prop := ∃ a : Account, a.machine = s.machine ∧ s.machine.Idle

theorem accounted_initial (sink : Sink) (clock : Nat → Float) :
    (Session.initial sink clock).Accounted :=
  ⟨⟨Machine.initial sink clock, fun _ => none, .initial sink clock⟩, rfl, Nat.zero_lt_one, rfl, rfl,
    rfl⟩

/-- What is known of receivers depends on the heap only. -/
theorem Accounted.of_heap {s s' : Session} (accounted : s.Accounted)
    (heap : s'.machine.heap = s.machine.heap) (current : s'.machine.current = s.machine.current) :
    s'.Accounted := by
  obtain ⟨a, machine, idle⟩ := accounted
  refine ⟨⟨s'.machine, a.entry, ?_⟩, rfl, idle.of_heap heap current⟩
  rw [heap, ← machine]
  exact a.books

theorem Accounted.prepared {s : Session} (accounted : s.Accounted) (chunk : Chunk) :
    Accounted ⟨s.prepared chunk, chunk.nextSite⟩ := by
  have same : s.prepared chunk =
      { s.machine.emptied with distances := (s.prepared chunk).distances } := by
    rw [Session.prepared, Machine.recordAll_eq]
  apply accounted.of_heap <;> rw [same] <;> rfl

theorem Accounted.run {s s' : Session} (accounted : s.Accounted) {fuel : Nat} {source : String}
    {report : Report} (ran : s.run fuel source = some (report, s')) : s'.Accounted := by
  by_cases clean : (s.chunk source).Clean
  · rw [s.run_of_clean clean, perform] at ran
    obtain ⟨a, machine, idle⟩ := accounted.prepared (s.chunk source)
    dsimp only at machine idle
    rw [← machine] at idle ran
    have ends :=
      Account.respected.ends fuel (Account.admits_of_idle idle (Chunk.sound source s.nextSite))
    change Account.discipline.Ends a _
      (executeAll fuel (s.chunk source).statements a.machine) at ends
    generalize executeAll fuel (s.chunk source).statements a.machine = r at ends ran
    cases ends with
    | @ok t _ later _ =>
        cases ran
        exact ⟨t, rfl, Account.idle_later idle later⟩
    | @error t halt later =>
        obtain ⟨_, -, same⟩ := Option.map_eq_some_iff.1 ran
        cases same
        exact ⟨t, rfl, Account.idle_later idle later⟩
  · rw [s.run_of_not_clean clean] at ran
    cases ran
    rw [rejected]
    split
    · exact accounted.prepared _
    · exact accounted.of_heap rfl rfl

theorem Accounted.runAll {s s' : Session} (accounted : s.Accounted) {fuel : Nat}
    {sources : List String} {reports : List Report}
    (ran : s.runAll fuel sources = some (reports, s')) : s'.Accounted := by
  induction sources generalizing s reports with
  | nil =>
      cases ran
      exact accounted
  | cons source sources ih =>
      obtain ⟨_, _, _, first, others, -⟩ := exists_of_runAll_cons ran
      exact ih (accounted.run first) others

end Session

theorem mem_visits_inheriting {source : String} {firstSite : Site} {v : Visit}
    (hv : v ∈ (Chunk.read source firstSite).visits) : v.Inheriting := by
  rw [Chunk.visits] at hv
  split at hv
  · rename_i clean
    exact visits_inheriting (Chunk.sound source firstSite) clean.2 v hv
  · cases hv

theorem mem_visitsOf_inheriting {firstSite : Site} {sources : List String} {v : Visit}
    (hv : v ∈ visitsOf firstSite sources) : v.Inheriting := by
  induction sources generalizing firstSite with
  | nil => cases hv
  | cons source sources ih =>
      rw [visitsOf_cons, List.mem_append] at hv
      rcases hv with hv | hv
      · exact mem_visits_inheriting hv
      · exact ih hv

/-- What holds of all nodes that may start where the receivers are known holds throughout the
execution of a chunk. -/
theorem throughout_of_admitted (sink : Sink) (clock : Nat → Float) {fuel : Nat}
    {earlier : List String} {reports : List Report} {s : Session}
    (ran : (Session.initial sink clock).runAll fuel earlier = some (reports, s)) (source : String)
    {T : Node → Machine → Prop} (sound : ∀ {a : Account} {n}, a.Admits n → T n a.machine)
    (fuel' : Nat) :
    Throughout T fuel' (s.chunk source).statements (s.prepared (s.chunk source)) := by
  have accounted := (Session.accounted_initial sink clock).runAll ran
  obtain ⟨a, machine, idle⟩ := accounted.prepared (s.chunk source)
  dsimp only at machine idle
  rw [← machine] at idle ⊢
  apply Account.respected.throughout _
    (Account.admits_of_idle idle (Chunk.sound source s.nextSite)) (throughout_true _ _ _)
  intro a n admits _
  exact sound admits

/-- Whatever chunks a session has run, while it executes another one `super` stands for the class
above that of the method around it, and the receiver is an object of that class or of one below. -/
theorem super_throughout (sink : Sink) (clock : Nat → Float) {fuel : Nat} {earlier : List String}
    {reports : List Report} {s : Session}
    (ran : (Session.initial sink clock).runAll fuel earlier = some (reports, s)) {source : String}
    (clean : (s.chunk source).Clean) (fuel' : Nat) :
    s.run fuel' source = Session.perform fuel' (s.chunk source).statements (s.chunk source).nextSite
        (s.prepared (s.chunk source)) ∧
      Throughout Dispatched fuel' (s.chunk source).statements (s.prepared (s.chunk source)) := by
  constructor
  · exact s.run_of_clean clean
  have resolved : Throughout (Resolved (visitsOf 0 (earlier ++ [source]))) fuel'
      (s.chunk source).statements (s.prepared (s.chunk source)) := by
    apply throughout_of_watches sink clock ran clean
    intro c visited otherwise
    exact Comparison.watches (sources_visitsOf 0 _) visited otherwise
  have accounted := (Session.accounted_initial sink clock).runAll ran
  obtain ⟨a, machine, idle⟩ := accounted.prepared (s.chunk source)
  dsimp only at machine idle
  rw [← machine] at idle resolved ⊢
  have inheriting (v : Visit) (hv : v ∈ visitsOf 0 (earlier ++ [source])) :
      v.Settled ∧ v.Inheriting :=
    ⟨(mem_visitsOf_sources hv).1, mem_visitsOf_inheriting hv⟩
  apply Account.respected.throughout
  · intro a n admits agrees
    exact Account.dispatched inheriting admits agrees
  · exact Account.admits_of_idle idle (Chunk.sound source s.nextSite)
  · exact resolved

/-- A class that inherits a method, in which a function uses `super` after the method has ended. -/
theorem super_throughout_closure :
    ∃ reports s, (Session.initial .unlimited fun _ => 0).runAll 20
        ["class A \x7b m() \x7b return 1; \x7d \x7d
          class B < A \x7b m() \x7b fun g() \x7b return super.m(); \x7d return g; \x7d \x7d
          class C < B \x7b\x7d"] = some (reports, s) ∧
      (s.chunk "print C().m()();").Clean ∧
      Throughout Dispatched 20 (s.chunk "print C().m()();").statements
        (s.prepared (s.chunk "print C().m()();")) := by
  have accepted : ((Session.initial .unlimited fun _ => 0).runAll 20
      ["class A \x7b m() \x7b return 1; \x7d \x7d
          class B < A \x7b m() \x7b fun g() \x7b return super.m(); \x7d return g; \x7d \x7d
          class C < B \x7b\x7d"]).any
        fun p => decide (p.2.chunk "print C().m()();").Clean := by decide +kernel
  obtain ⟨⟨reports, s⟩, ran, clean⟩ := (Option.any_eq_true _ _).1 accepted
  have clean := of_decide_eq_true clean
  exact ⟨reports, s, ran, clean, (super_throughout .unlimited _ ran clean 20).2⟩

end Lox
