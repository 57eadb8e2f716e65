import Lox.Proofs.Token.Scan
import Lox.Proofs.Scope.Visit
import Lox.Evaluation

/-!
# Settled scopes

Between two statements every declaration around is complete: the scopes are *settled*.  A
declaration has only begun while its own initializer is visited, and then in the innermost scope.
The other exception are superclass clauses, which are visited with the name of the class declared;
but such a clause is the name of another class.

So what a variable refers to at its visit is complete, and is there when it is evaluated
(`Visit.Settled.complete`).
-/

namespace Lox

/-- No declaration has only begun. -/
def Scopes.Settled (S : Scopes) : Prop := ∀ scope ∈ S, ∀ name, scope.get? name ≠ some .begun

namespace Scopes

theorem settled_nil : Settled [] := by
  intro scope h
  cases h

theorem settled_cons {scope : Scope} {S : Scopes} :
    Settled (scope :: S) ↔ (∀ name, scope.get? name ≠ some .begun) ∧ Settled S := by
  rw [Settled, List.forall_mem_cons]
  exact Iff.rfl

theorem Settled.inside {S : Scopes} (h : S.Settled) : Settled ([] :: S) :=
  settled_cons.2 ⟨fun name => by simp, h⟩

theorem Settled.holding {S : Scopes} (h : S.Settled) (word : String) :
    Settled (Scope.holding word :: S) := by
  refine settled_cons.2 ⟨fun name held => ?_, h⟩
  rw [Scope.holding, Table.get?] at held
  split at held <;> cases held

/-- What has begun after a declaration of a name has is that name, in the innermost scope. -/
theorem Settled.declare {S : Scopes} (h : S.Settled) {name other : String} {i : Nat} {scope : Scope}
    (hi : (S.declare name)[i]? = some scope) (begun : scope.get? other = some .begun) :
    i = 0 ∧ other = name := by
  cases S with
  | nil => cases hi
  | cons inner S =>
      obtain ⟨inner_settled, outer_settled⟩ := settled_cons.1 h
      cases i with
      | succ i => exact absurd begun (outer_settled scope (List.mem_of_getElem? hi) other)
      | zero =>
          refine ⟨rfl, ?_⟩
          obtain rfl : (if inner.has name then inner else inner.set name .begun) = scope :=
            Option.some.inj hi
          split at begun
          · exact absurd begun (inner_settled other)
          · by_contra ne
            rw [Table.get?_set_of_ne _ _ ne] at begun
            exact inner_settled other begun

theorem Settled.introduce {S : Scopes} (h : S.Settled) (name : Token) :
    (S.introduce name).Settled := by
  cases S with
  | nil => exact settled_nil
  | cons inner S =>
      refine settled_cons.2 ⟨fun other begun => ?_, (settled_cons.1 h).2⟩
      by_cases ne : other = name.lexeme
      · rw [ne, Table.get?_set_self] at begun
        cases begun
      · rw [Table.get?_set_of_ne _ _ ne] at begun
        exact ne (h.declare (i := 0) rfl begun).2

theorem Settled.introduceAll {S : Scopes} (h : S.Settled) (names : List Token) :
    (S.introduceAll names).1.Settled := by
  induction names generalizing S with
  | nil => exact h
  | cons name names ih => exact ih (h.introduce name)

theorem Settled.after {S : Scopes} (h : S.Settled) : ∀ s : Stmt, (s.after S).Settled
  | .expression _ | .print _ | .block _ | .return _ _ => h
  | .var name _ => h.introduce name
  | .function d => h.introduce d.name
  | .class name _ _ => h.introduce name
  | .branch _ s none | .while _ s => Settled.after h s
  | .branch _ s (some s') => Settled.after (Settled.after h s) s'

end Scopes

/-- What is known of the scopes of a visit. -/
structure Visit.Settled (v : Visit) : Prop where
  begun : ∀ i scope name, v.scopes[i]? = some scope → scope.get? name = some .begun →
    i = 0 ∧ name ≠ receiverName
  pending : ∀ p, v.pending = some p → ∃ site n, v.node = .expr (.variable site n) ∧ n.lexeme ≠ p

/-- A node that the grammar can have made of a source text. -/
structure Node.Sound (n : Node) : Prop where
  formed : n.WellFormed
  spelled : ∀ t ∈ n.tokens, t.Spelled

theorem Visit.settled_of_scopes {v : Visit} (h : v.scopes.Settled) (pending : v.pending = none) :
    v.Settled where
  begun i scope name hi begun := absurd begun (h scope (List.mem_of_getElem? hi) name)
  pending p hp := by
    rw [pending] at hp
    cases hp

/-- A statement is visited between statements. -/
theorem Visit.settled_node {S : Scopes} (h : S.Settled) (n : Node) :
    ∀ v ∈ [(⟨S, none, n⟩ : Visit)], v.Settled := by
  intro v hv
  obtain rfl := List.mem_singleton.1 hv
  exact Visit.settled_of_scopes h rfl

theorem Expr.visits_settled {S : Scopes} (h : S.Settled) (e : Expr) :
    ∀ v ∈ e.visits none S, v.Settled := by
  intro v hv
  obtain ⟨n, -, rfl⟩ := List.mem_map.1 hv
  exact Visit.settled_of_scopes h rfl

/-- The visits of the initializer of a variable. -/
theorem Expr.visits_settled_of_declare {S : Scopes} (h : S.Settled) {name : Token}
    (ne : name.lexeme ≠ receiverName) (e : Expr) :
    ∀ v ∈ e.visits none (S.declare name.lexeme), v.Settled := by
  intro v hv
  obtain ⟨n, -, rfl⟩ := List.mem_map.1 hv
  refine ⟨fun i scope other hi begun => ?_, fun p hp => by cases hp⟩
  obtain ⟨hi, rfl⟩ := h.declare hi begun
  exact ⟨hi, ne⟩

/-- The visits of a superclass clause. -/
theorem Expr.visits_settled_of_clause {S : Scopes} (h : S.Settled) {name : Token} {clause : Expr}
    (named : clause.isName) (errors : scopeErrorsOf (superclassFindings name clause) = []) :
    ∀ v ∈ clause.visits (some name.lexeme) S, v.Settled := by
  cases clause with
  | «variable» site n =>
      intro v hv
      obtain rfl := List.mem_singleton.1 hv
      refine ⟨fun i scope other hi begun => absurd begun (h scope (List.mem_of_getElem? hi) other),
        fun p hp => ⟨site, n, rfl, ?_⟩⟩
      cases hp
      rw [superclassFindings, scopeErrorsOf_findingIf] at errors
      exact of_decide_eq_false errors
  | _ => cases named

/-- A name that programs can give to variables and parameters. -/
structure Ordinary (name : String) : Prop where
  receiver : name ≠ receiverName
  super : name ≠ superName

theorem Ordinary.of_spelled {name : Token} (identifier : name.kind = .identifier)
    (spelled : name.Spelled) : Ordinary name.lexeme :=
  ⟨spelled.ne_spelling identifier .this, spelled.ne_spelling identifier .super⟩

theorem Node.Sound.ordinary_of_function {d : FunctionDecl} (h : Node.Sound (.stmt (.function d))) :
    ∀ name ∈ d.names, Ordinary name.lexeme :=
  fun name hn => .of_spelled (h.formed name hn) (h.spelled name hn)

theorem Node.Sound.ordinary_of_class {name : Token} {clause : Option Expr}
    {ds : List FunctionDecl} (h : Node.Sound (.stmt (.class name clause ds))) :
    Ordinary name.lexeme ∧ ∀ d ∈ ds, ∀ p ∈ d.parameters, Ordinary p.lexeme := by
  obtain ⟨identifier, -, members⟩ := h.formed
  refine ⟨.of_spelled identifier (h.spelled name List.mem_cons_self), fun d hd p hp => ?_⟩
  have mem : p ∈ d.names := List.mem_cons_of_mem _ hp
  refine .of_spelled (members d hd p mem) (h.spelled p ?_)
  exact List.mem_cons_of_mem _ (List.mem_flatMap.2 ⟨d, hd, mem⟩)

theorem ne_receiverName {name : Token} (identifier : name.kind = .identifier)
    (spelled : name.Spelled) : name.lexeme ≠ receiverName :=
  spelled.ne_spelling identifier .this

mutual

theorem Stmt.visits_settled (context : Context) : ∀ {S : Scopes} (s : Stmt), S.Settled →
    (∀ n ∈ s.nodes, n.Sound) → scopeErrorsOf (s.findings context S).2 = [] →
    ∀ v ∈ s.visits S, v.Settled
  | S, .expression e, h, _, _ | S, .print e, h, _, _ | S, .return _ (some e), h, _, _ => by
      rw [Stmt.visits, List.forall_mem_append]
      refine ⟨Expr.visits_settled h e, ?_⟩
      exact Visit.settled_node h _
  | S, .var name none, h, _, _ => by
      exact Visit.settled_node h _
  | S, .var name (some e), h, sound, _ => by
      have here := sound _ (Stmt.self_mem_nodes (.var name (some e)))
      have ne := ne_receiverName here.formed (here.spelled name (List.mem_singleton_self _))
      rw [Stmt.visits, List.forall_mem_append]
      refine ⟨Expr.visits_settled_of_declare h ne e, ?_⟩
      exact Visit.settled_node h _
  | S, .block body, h, sound, errors => by
      have inside : ∀ n ∈ Stmt.nodesAll body, n.Sound :=
        fun n hn => sound n (by simp [Stmt.nodes, hn])
      rw [Stmt.visits, List.forall_mem_append]
      refine ⟨Stmt.visits_settledAll context body h.inside inside errors, ?_⟩
      exact Visit.settled_node h _
  | S, .branch e s none, h, sound, errors | S, .while e s, h, sound, errors => by
      have inside : ∀ n ∈ s.nodes, n.Sound := fun n hn => sound n (by simp [Stmt.nodes, hn])
      simp only [Stmt.findings, scopeErrorsOf_append, List.append_eq_nil_iff] at errors
      rw [Stmt.visits, List.forall_mem_append, List.forall_mem_append]
      refine ⟨⟨Expr.visits_settled h e, Stmt.visits_settled context s h inside errors.2⟩, ?_⟩
      exact Visit.settled_node h _
  | S, .branch e s (some s'), h, sound, errors => by
      have first : ∀ n ∈ s.nodes, n.Sound := fun n hn => sound n (by simp [Stmt.nodes, hn])
      have second : ∀ n ∈ s'.nodes, n.Sound := fun n hn => sound n (by simp [Stmt.nodes, hn])
      simp only [Stmt.findings, scopeErrorsOf_append, List.append_eq_nil_iff,
        Stmt.findings_fst] at errors
      rw [Stmt.visits, List.forall_mem_append, List.forall_mem_append, List.forall_mem_append]
      refine ⟨⟨⟨Expr.visits_settled h e, Stmt.visits_settled context s h first errors.1.2⟩,
        Stmt.visits_settled context s' (h.after s) second errors.2⟩, ?_⟩
      exact Visit.settled_node h _
  | S, .function d, h, sound, errors => by
      have inside : ∀ n ∈ d.nodes, n.Sound := fun n hn => sound n (by simp [Stmt.nodes, hn])
      simp only [Stmt.findings, scopeErrorsOf_append, List.append_eq_nil_iff] at errors
      rw [Stmt.visits, List.forall_mem_append]
      refine ⟨FunctionDecl.visits_settled _ context d (h.introduce d.name) inside errors.2, ?_⟩
      exact Visit.settled_node h _
  | S, .return keyword none, h, _, _ => by
      exact Visit.settled_node h _
  | S, .class name none ds, h, sound, errors => by
      have inside : ∀ n ∈ Stmt.nodesOfMethods ds, n.Sound :=
        fun n hn => sound n (by simp [Stmt.nodes, hn])
      simp only [Stmt.findings, scopeErrorsOf_append, List.append_eq_nil_iff] at errors
      rw [Stmt.visits, List.forall_mem_append]
      refine ⟨Stmt.visits_settledOfMethods _ ds ((h.introduce name).holding "this") inside
        errors.2, ?_⟩
      exact Visit.settled_node h _
  | S, .class name (some e) ds, h, sound, errors => by
      have here := sound _ (Stmt.self_mem_nodes (.class name (some e) ds))
      have inside : ∀ n ∈ Stmt.nodesOfMethods ds, n.Sound :=
        fun n hn => sound n (by simp [Stmt.nodes, hn])
      simp only [Stmt.findings, scopeErrorsOf_append, List.append_eq_nil_iff] at errors
      obtain ⟨⟨⟨-, clause⟩, -⟩, methods⟩ := errors
      rw [Stmt.visits, List.forall_mem_append, List.forall_mem_append]
      refine ⟨⟨?_, ?_⟩, Visit.settled_node h _⟩
      · exact Expr.visits_settled_of_clause (h.introduce name) (here.formed.2.1 e rfl) clause
      · exact Stmt.visits_settledOfMethods _ ds
          (((h.introduce name).holding "super").holding "this")
          inside methods

theorem Stmt.visits_settledAll (context : Context) : ∀ {S : Scopes} (ss : List Stmt), S.Settled →
    (∀ n ∈ Stmt.nodesAll ss, n.Sound) → scopeErrorsOf (Stmt.findingsAll context S ss) = [] →
    ∀ v ∈ Stmt.visitsAll S ss, v.Settled
  | _, [], _, _, _ => fun _ h => by cases h
  | S, s :: ss, h, sound, errors => by
      rw [Stmt.nodesAll, List.forall_mem_append] at sound
      rw [Stmt.findingsAll_cons, scopeErrorsOf_append, List.append_eq_nil_iff] at errors
      rw [Stmt.visitsAll, List.forall_mem_append]
      exact ⟨Stmt.visits_settled context s h sound.1 errors.1,
        Stmt.visits_settledAll context ss (h.after s) sound.2 errors.2⟩

theorem Stmt.visits_settledOfMethods (context : Context) : ∀ {S : Scopes} (ds : List FunctionDecl),
    S.Settled → (∀ n ∈ Stmt.nodesOfMethods ds, n.Sound) →
    scopeErrorsOf (Stmt.findingsOfMethods context S ds) = [] →
    ∀ v ∈ Stmt.visitsOfMethods S ds, v.Settled
  | _, [], _, _, _ => fun _ h => by cases h
  | S, d :: ds, h, sound, errors => by
      rw [Stmt.nodesOfMethods, List.forall_mem_append] at sound
      rw [Stmt.findingsOfMethods, scopeErrorsOf_append, List.append_eq_nil_iff] at errors
      rw [Stmt.visitsOfMethods, List.forall_mem_append]
      exact ⟨FunctionDecl.visits_settled _ context d h sound.1 errors.1,
        Stmt.visits_settledOfMethods context ds h sound.2 errors.2⟩

theorem FunctionDecl.visits_settled (kind : FunctionContext) (context : Context) : ∀ {S : Scopes}
    (d : FunctionDecl), S.Settled → (∀ n ∈ d.nodes, n.Sound) →
    scopeErrorsOf (d.findings kind context S) = [] → ∀ v ∈ d.visits S, v.Settled
  | S, ⟨name, parameters, body⟩, h, sound, errors => by
      simp only [FunctionDecl.findings, scopeErrorsOf_append, List.append_eq_nil_iff] at errors
      exact Stmt.visits_settledAll _ body (h.inside.introduceAll parameters) sound errors.2

end

/-- The scopes of the visits of a program without errors are settled. -/
theorem visits_settled {ss : List Stmt} (sound : ∀ n ∈ Stmt.nodesAll ss, n.Sound)
    (errors : scopeErrorsOf (analyze ss) = []) : ∀ v ∈ visits ss, v.Settled :=
  Stmt.visits_settledAll .top ss Scopes.settled_nil sound errors

/-- The node reads the value of a name. -/
def Node.Reads (n : Node) (site : Site) (name : Token) : Prop :=
  n = .expr (.variable site name) ∨ n = .expr (.this site name)

theorem Node.Reads.reference? {n : Node} {site : Site} {name : Token} (h : n.Reads site name) :
    n.reference? = some (site, name) := by
  rcases h with rfl | rfl <;> rfl

/-- The scope at the distance of a name holds it. -/
theorem Scopes.get?_of_distance? {S : Scopes} {name : String} {d : Nat}
    (h : S.distance? name = some d) :
    ∃ scope declaration, S[d]? = some scope ∧ scope.get? name = some declaration := by
  induction S generalizing d with
  | nil => cases h
  | cons scope S ih =>
      rw [Scopes.distance?_cons] at h
      split at h
      · rename_i held
        cases h
        obtain ⟨declaration, hd⟩ := Option.isSome_iff_exists.1 held
        exact ⟨scope, declaration, rfl, hd⟩
      · obtain ⟨d', hd', rfl⟩ := Option.map_eq_some_iff.1 h
        exact ih hd'

/-- A name that is read is declared completely where it is found. -/
theorem Visit.Settled.complete {v : Visit} (settled : v.Settled) (ready : v.Ready)
    (sound : v.node.Sound) {site : Site} {name : Token} (reads : v.node.Reads site name) {d : Nat}
    (h : v.scopes.distance? name.lexeme = some d) :
    ∃ scope, v.scopes[d]? = some scope ∧ scope.get? name.lexeme = some .complete ∧
      v.pending ≠ some name.lexeme := by
  obtain ⟨scope, declaration, hd, held⟩ := Scopes.get?_of_distance? h
  refine ⟨scope, hd, ?_, fun hp => ?_⟩
  · cases declaration with
    | complete => exact held
    | begun =>
        obtain ⟨rfl, ne⟩ := settled.begun d scope name.lexeme hd held
        rcases reads with hv | hv
        · have unread := ready site name hv
          obtain ⟨outer, hs⟩ : ∃ outer, v.scopes = scope :: outer := by
            cases hs : v.scopes with
            | nil => simp [hs] at hd
            | cons inner outer => exact ⟨outer, by simpa [hs] using hd⟩
          simp [hs, Scopes.isBegun, held] at unread
        · have formed := sound.formed
          have spelled := sound.spelled name
          rw [hv] at formed spelled
          exact absurd ((spelled (List.mem_singleton_self _)).keyword .this formed) ne
  · obtain ⟨site', n, hv, ne⟩ := settled.pending name.lexeme hp
    rw [Node.Reads, hv] at reads
    rcases reads with same | same
    · cases same
      exact ne rfl
    · cases same

end Lox
