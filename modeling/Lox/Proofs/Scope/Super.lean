import Lox.Proofs.Scope.Settled

/-!
# Where `super` may stand

In a program without errors `super` stands in the methods of classes that have a superclass.  There
the scope of `this` and that of `super` are around it, one inside the other, and every scope between
has other names only (`Scopes.Inheriting`).
-/

namespace Lox

/-- The scopes of a point in the methods of a class with a superclass. -/
def Scopes.Inheriting (S : Scopes) : Prop :=
  ∃ inner scopes outer,
    S = inner :: scopes ++ Scope.holding "this" :: Scope.holding "super" :: outer ∧
    ∀ scope ∈ inner :: scopes, scope.has superName = false

namespace Scopes.Inheriting

variable {S : Scopes}

theorem inside (h : S.Inheriting) : Scopes.Inheriting ([] :: S) := by
  obtain ⟨inner, scopes, outer, rfl, free⟩ := h
  refine ⟨[], inner :: scopes, outer, rfl, ?_⟩
  exact List.forall_mem_cons.2 ⟨rfl, free⟩

theorem ofMethod (S : Scopes) :
    Scopes.Inheriting ([] :: Scope.holding "this" :: Scope.holding "super" :: S) := by
  refine ⟨[], [], S, rfl, ?_⟩
  intro scope h
  rw [List.mem_singleton.1 h]
  rfl

theorem has_set {scope : Scope} {name : String} (free : scope.has superName = false)
    (ne : name ≠ superName) (declaration : Declaration) :
    Table.has (scope.set name declaration) superName = false := by
  rw [Table.has, Table.get?_set_of_ne _ _ (Ne.symm ne)]
  exact free

theorem declare (h : S.Inheriting) {name : String} (ne : name ≠ superName) :
    Scopes.Inheriting (S.declare name) := by
  obtain ⟨inner, scopes, outer, rfl, free⟩ := h
  obtain ⟨head, rest⟩ := List.forall_mem_cons.1 free
  refine ⟨_, scopes, outer, rfl, List.forall_mem_cons.2 ⟨?_, rest⟩⟩
  split
  · exact head
  · exact has_set head ne .begun

theorem define (h : S.Inheriting) {name : String} (ne : name ≠ superName) :
    Scopes.Inheriting (S.define name) := by
  obtain ⟨inner, scopes, outer, rfl, free⟩ := h
  obtain ⟨head, rest⟩ := List.forall_mem_cons.1 free
  exact ⟨_, scopes, outer, rfl, List.forall_mem_cons.2 ⟨has_set head ne .complete, rest⟩⟩

theorem introduce (h : S.Inheriting) {name : Token} (ordinary : Ordinary name.lexeme) :
    Scopes.Inheriting (S.introduce name) :=
  (h.declare ordinary.super).define ordinary.super

theorem introduceAll (h : S.Inheriting) {names : List Token}
    (ordinary : ∀ name ∈ names, Ordinary name.lexeme) :
    Scopes.Inheriting (S.introduceAll names).1 := by
  induction names generalizing S with
  | nil => exact h
  | cons name names ih =>
      obtain ⟨head, rest⟩ := List.forall_mem_cons.1 ordinary
      exact ih (h.introduce head) rest

/-- The class is two scopes around the methods, and the receiver is held one scope inside that. -/
theorem distance? (h : S.Inheriting) : ∃ d, S.distance? superName = some (d + 1) ∧
    S[d]? = some (Scope.holding receiverName) ∧ S[d + 1]? = some (Scope.holding superName) := by
  obtain ⟨inner, scopes, outer, rfl, free⟩ := h
  generalize inner :: scopes = between at free
  refine ⟨between.length, ?_, ?_, ?_⟩
  · induction between with
    | nil => rfl
    | cons scope between ih =>
        obtain ⟨head, rest⟩ := List.forall_mem_cons.1 free
        rw [List.cons_append, Scopes.distance?_cons, head, ih rest]
        rfl
  · rw [List.getElem?_append_right (Nat.le_refl _), Nat.sub_self]
    rfl
  · rw [List.getElem?_append_right (Nat.le_add_right _ 1), Nat.add_sub_cancel_left]
    rfl

end Scopes.Inheriting

/-- A visit to `super` is in the methods of a class with a superclass. -/
def Visit.Inheriting (v : Visit) : Prop :=
  ∀ site keyword method, v.node = .expr (.super site keyword method) → v.scopes.Inheriting

mutual

theorem Expr.derived_of_super {context : Context} {pending : Option String} {S : Scopes}
    {n : Node} (node : ∃ site keyword method, n = .expr (.super site keyword method)) :
    ∀ e : Expr, scopeErrorsOf (e.findings context pending S) = [] → n ∈ e.nodes →
      context.enclosing = .derived
  | .literal _, _, h | .variable _ _, _, h | .this _ _, _, h => by
      obtain ⟨_, _, _, rfl⟩ := node
      cases List.mem_singleton.1 h
  | .grouping a, errors, h | .unary _ a, errors, h | .get a _, errors, h => by
      rcases List.mem_append.1 h with h | h
      · exact Expr.derived_of_super node a errors h
      · obtain ⟨_, _, _, rfl⟩ := node
        cases List.mem_singleton.1 h
  | .binary a _ b, errors, h | .logical a _ b, errors, h | .set b _ a, errors, h => by
      rw [Expr.findings, scopeErrorsOf_append, List.append_eq_nil_iff] at errors
      rcases List.mem_append.1 h with h | h
      · rcases List.mem_append.1 h with h | h
        · exact Expr.derived_of_super node a errors.1 h
        · exact Expr.derived_of_super node b errors.2 h
      · obtain ⟨_, _, _, rfl⟩ := node
        cases List.mem_singleton.1 h
  | .assign _ _ a, errors, h => by
      rw [Expr.findings, scopeErrorsOf_append, List.append_eq_nil_iff] at errors
      rcases List.mem_append.1 h with h | h
      · exact Expr.derived_of_super node a errors.1 h
      · obtain ⟨_, _, _, rfl⟩ := node
        cases List.mem_singleton.1 h
  | .call a _ as, errors, h => by
      rw [Expr.findings, scopeErrorsOf_append, List.append_eq_nil_iff] at errors
      rcases List.mem_append.1 h with h | h
      · rcases List.mem_append.1 h with h | h
        · exact Expr.derived_of_super node a errors.1 h
        · exact Expr.derived_of_superAll node as errors.2 h
      · obtain ⟨_, _, _, rfl⟩ := node
        cases List.mem_singleton.1 h
  | .super _ _ _, errors, _ => by
      simp only [Expr.findings, scopeErrorsOf_append, List.append_eq_nil_iff,
        scopeErrorsOf_findingIf, decide_eq_false_iff_not] at errors
      cases hc : context.enclosing with
      | none => exact absurd hc errors.1.1
      | base => exact absurd hc errors.1.2
      | derived => rfl

theorem Expr.derived_of_superAll {context : Context} {pending : Option String} {S : Scopes}
    {n : Node} (node : ∃ site keyword method, n = .expr (.super site keyword method)) :
    ∀ es : List Expr, scopeErrorsOf (Expr.findingsAll context pending S es) = [] →
      n ∈ Expr.nodesAll es → context.enclosing = .derived
  | [], _, h => by cases h
  | e :: es, errors, h => by
      rw [Expr.findingsAll, scopeErrorsOf_append, List.append_eq_nil_iff] at errors
      rcases List.mem_append.1 h with h | h
      · exact Expr.derived_of_super node e errors.1 h
      · exact Expr.derived_of_superAll node es errors.2 h

end

/-- The visits of an expression that stands where its context says. -/
theorem Expr.visits_inheriting {context : Context} {name pending : Option String} {S : Scopes}
    (placed : context.enclosing = .derived → S.Inheriting) {e : Expr}
    (errors : scopeErrorsOf (e.findings context name S) = []) :
    ∀ v ∈ e.visits pending S, v.Inheriting := by
  intro v hv site keyword method hn
  obtain ⟨n, mem, rfl⟩ := List.mem_map.1 hv
  exact placed (Expr.derived_of_super ⟨site, keyword, method, hn⟩ e errors mem)

theorem Stmt.visit_inheriting (S : Scopes) (s : Stmt) :
    ∀ v ∈ [(⟨S, none, .stmt s⟩ : Visit)], v.Inheriting := by
  intro v hv site keyword method hn
  rw [List.mem_singleton.1 hv] at hn
  cases hn

/-- A superclass clause is a name. -/
theorem Expr.visits_inheriting_of_clause {clause : Expr} (named : clause.isName)
    (pending : Option String) (S : Scopes) : ∀ v ∈ clause.visits pending S, v.Inheriting := by
  cases clause with
  | «variable» site name =>
      intro v hv _ _ _ hn
      rw [List.mem_singleton.1 hv] at hn
      cases hn
  | _ => cases named

theorem Scopes.Inheriting.after {S : Scopes} (h : S.Inheriting) :
    ∀ s : Stmt, (∀ n ∈ s.nodes, n.Sound) → Scopes.Inheriting (s.after S)
  | .expression _, _ | .print _, _ | .block _, _ | .return _ _, _ => h
  | .var name e, sound => by
      have here := sound _ (Stmt.self_mem_nodes (.var name e))
      exact h.introduce (.of_spelled here.formed (here.spelled name List.mem_cons_self))
  | .function d, sound =>
      h.introduce ((sound _ (Stmt.self_mem_nodes _)).ordinary_of_function d.name List.mem_cons_self)
  | .class _ _ _, sound => h.introduce (sound _ (Stmt.self_mem_nodes _)).ordinary_of_class.1
  | .branch _ s none, sound | .while _ s, sound =>
      Inheriting.after h s fun n hn => sound n (by simp [Stmt.nodes, hn])
  | .branch _ s (some s'), sound =>
      Inheriting.after (Inheriting.after h s fun n hn => sound n (by simp [Stmt.nodes, hn])) s'
        fun n hn => sound n (by simp [Stmt.nodes, hn])

mutual

theorem Stmt.visits_inheriting (context : Context) : ∀ {S : Scopes} (s : Stmt),
    (context.enclosing = .derived → S.Inheriting) → (∀ n ∈ s.nodes, n.Sound) →
    scopeErrorsOf (s.findings context S).2 = [] → ∀ v ∈ s.visits S, v.Inheriting
  | S, .expression e, placed, _, errors | S, .print e, placed, _, errors => by
      rw [Stmt.visits, List.forall_mem_append]
      exact ⟨Expr.visits_inheriting placed errors, Stmt.visit_inheriting S _⟩
  | S, .var name none, _, _, _ | S, .return name none, _, _, _ => Stmt.visit_inheriting S _
  | S, .var name (some e), placed, sound, errors => by
      have here := sound _ (Stmt.self_mem_nodes (.var name (some e)))
      have ordinary : Ordinary name.lexeme :=
        .of_spelled here.formed (here.spelled name List.mem_cons_self)
      simp only [Stmt.findings, scopeErrorsOf_append, List.append_eq_nil_iff] at errors
      rw [Stmt.visits, List.forall_mem_append]
      refine ⟨Expr.visits_inheriting ?_ errors.2, Stmt.visit_inheriting S _⟩
      exact fun derived => (placed derived).declare ordinary.super
  | S, .block body, placed, sound, errors => by
      rw [Stmt.visits, List.forall_mem_append]
      refine ⟨Stmt.visits_inheritingAll context body ?_ ?_ errors, Stmt.visit_inheriting S _⟩
      · exact fun derived => (placed derived).inside
      · exact fun n hn => sound n (by simp [Stmt.nodes, hn])
  | S, .branch e s none, placed, sound, errors | S, .while e s, placed, sound, errors => by
      have inside : ∀ n ∈ s.nodes, n.Sound := fun n hn => sound n (by simp [Stmt.nodes, hn])
      simp only [Stmt.findings, scopeErrorsOf_append, List.append_eq_nil_iff] at errors
      rw [Stmt.visits, List.forall_mem_append, List.forall_mem_append]
      exact ⟨⟨Expr.visits_inheriting placed errors.1,
        Stmt.visits_inheriting context s placed inside errors.2⟩, Stmt.visit_inheriting S _⟩
  | S, .branch e s (some s'), placed, sound, errors => by
      have first : ∀ n ∈ s.nodes, n.Sound := fun n hn => sound n (by simp [Stmt.nodes, hn])
      have second : ∀ n ∈ s'.nodes, n.Sound := fun n hn => sound n (by simp [Stmt.nodes, hn])
      simp only [Stmt.findings, scopeErrorsOf_append, List.append_eq_nil_iff,
        Stmt.findings_fst] at errors
      rw [Stmt.visits, List.forall_mem_append, List.forall_mem_append, List.forall_mem_append]
      refine ⟨⟨⟨Expr.visits_inheriting placed errors.1.1,
        Stmt.visits_inheriting context s placed first errors.1.2⟩,
        Stmt.visits_inheriting context s' ?_ second errors.2⟩, Stmt.visit_inheriting S _⟩
      exact fun derived => (placed derived).after s first
  | S, .function d, placed, sound, errors => by
      have ordinary := (sound _ (Stmt.self_mem_nodes (.function d))).ordinary_of_function
      simp only [Stmt.findings, scopeErrorsOf_append, List.append_eq_nil_iff] at errors
      rw [Stmt.visits, List.forall_mem_append]
      refine ⟨FunctionDecl.visits_inheriting _ context d ?_ ?_ ?_ errors.2,
        Stmt.visit_inheriting S _⟩
      · exact fun derived =>
          ((placed derived).introduce (ordinary d.name List.mem_cons_self)).inside
      · exact fun p hp => ordinary p (List.mem_cons_of_mem _ hp)
      · exact fun n hn => sound n (by simp [Stmt.nodes, hn])
  | S, .return keyword (some e), placed, _, errors => by
      simp only [Stmt.findings, scopeErrorsOf_append, List.append_eq_nil_iff] at errors
      rw [Stmt.visits, List.forall_mem_append]
      exact ⟨Expr.visits_inheriting placed errors.2, Stmt.visit_inheriting S _⟩
  | S, .class name none ds, _, sound, errors => by
      have ordinary := (sound _ (Stmt.self_mem_nodes (.class name none ds))).ordinary_of_class.2
      simp only [Stmt.findings, scopeErrorsOf_append, List.append_eq_nil_iff] at errors
      rw [Stmt.visits, List.forall_mem_append]
      refine ⟨Stmt.visits_inheritingOfMethods _ ds ?_ ordinary ?_ errors.2,
        Stmt.visit_inheriting S _⟩
      · intro derived
        cases derived
      · exact fun n hn => sound n (by simp [Stmt.nodes, hn])
  | S, .class name (some e) ds, _, sound, errors => by
      have here := sound _ (Stmt.self_mem_nodes (.class name (some e) ds))
      simp only [Stmt.findings, scopeErrorsOf_append, List.append_eq_nil_iff] at errors
      rw [Stmt.visits, List.forall_mem_append, List.forall_mem_append]
      refine ⟨⟨Expr.visits_inheriting_of_clause (here.formed.2.1 e rfl) _ _,
        Stmt.visits_inheritingOfMethods _ ds ?_ here.ordinary_of_class.2 ?_ errors.2⟩,
        Stmt.visit_inheriting S _⟩
      · exact fun _ => Scopes.Inheriting.ofMethod _
      · exact fun n hn => sound n (by simp [Stmt.nodes, hn])

theorem Stmt.visits_inheritingAll (context : Context) : ∀ {S : Scopes} (ss : List Stmt),
    (context.enclosing = .derived → S.Inheriting) → (∀ n ∈ Stmt.nodesAll ss, n.Sound) →
    scopeErrorsOf (Stmt.findingsAll context S ss) = [] → ∀ v ∈ Stmt.visitsAll S ss, v.Inheriting
  | _, [], _, _, _ => fun _ h => by cases h
  | S, s :: ss, placed, sound, errors => by
      rw [Stmt.nodesAll, List.forall_mem_append] at sound
      rw [Stmt.findingsAll_cons, scopeErrorsOf_append, List.append_eq_nil_iff] at errors
      rw [Stmt.visitsAll, List.forall_mem_append]
      refine ⟨Stmt.visits_inheriting context s placed sound.1 errors.1,
        Stmt.visits_inheritingAll context ss ?_ sound.2 errors.2⟩
      exact fun derived => (placed derived).after s sound.1

theorem Stmt.visits_inheritingOfMethods (context : Context) : ∀ {S : Scopes}
    (ds : List FunctionDecl), (context.enclosing = .derived → Scopes.Inheriting ([] :: S)) →
    (∀ d ∈ ds, ∀ p ∈ d.parameters, Ordinary p.lexeme) →
    (∀ n ∈ Stmt.nodesOfMethods ds, n.Sound) →
    scopeErrorsOf (Stmt.findingsOfMethods context S ds) = [] →
    ∀ v ∈ Stmt.visitsOfMethods S ds, v.Inheriting
  | _, [], _, _, _, _ => fun _ h => by cases h
  | S, d :: ds, placed, ordinary, sound, errors => by
      obtain ⟨head, rest⟩ := List.forall_mem_cons.1 ordinary
      rw [Stmt.nodesOfMethods, List.forall_mem_append] at sound
      rw [Stmt.findingsOfMethods, scopeErrorsOf_append, List.append_eq_nil_iff] at errors
      rw [Stmt.visitsOfMethods, List.forall_mem_append]
      exact ⟨FunctionDecl.visits_inheriting _ context d placed head sound.1 errors.1,
        Stmt.visits_inheritingOfMethods context ds placed rest sound.2 errors.2⟩

theorem FunctionDecl.visits_inheriting (kind : FunctionContext) (context : Context) :
    ∀ {S : Scopes} (d : FunctionDecl),
    (context.enclosing = .derived → Scopes.Inheriting ([] :: S)) →
    (∀ p ∈ d.parameters, Ordinary p.lexeme) → (∀ n ∈ d.nodes, n.Sound) →
    scopeErrorsOf (d.findings kind context S) = [] → ∀ v ∈ d.visits S, v.Inheriting
  | S, ⟨name, parameters, body⟩, placed, ordinary, sound, errors => by
      simp only [FunctionDecl.findings, scopeErrorsOf_append, List.append_eq_nil_iff] at errors
      refine Stmt.visits_inheritingAll { context with function := kind } body ?_ sound errors.2
      exact fun derived => (placed derived).introduceAll ordinary

end

/-- In a program without errors `super` is visited in the methods of classes with a superclass. -/
theorem visits_inheriting {ss : List Stmt} (sound : ∀ n ∈ Stmt.nodesAll ss, n.Sound)
    (errors : scopeErrorsOf (analyze ss) = []) : ∀ v ∈ visits ss, v.Inheriting := by
  refine Stmt.visits_inheritingAll .top ss ?_ sound errors
  intro derived
  cases derived

end Lox
