import Mathlib.Data.List.Pairwise
import Lox.Proofs.Heap.Renaming
import Lox.Proofs.Scope.Enclosure
import Lox.Proofs.Scope.Visit
import Lox.Proofs.Session.Recording

/-!
# Recorded distances are lexical distances

The static analysis walks through a program with scopes that it fills on the way.  At every place
they hold the names that the constructs around the place bind (`Reflects`), one scope for each
construct.  So what the analysis finds out about the names of a program, node by node, can be read
off the tree (`settles_analyze`), and the distance that is recorded for a name is its lexical
distance (`recorded_lexically`).
-/

namespace Lox

/-- The scopes hold the names that the constructs around a place bind. -/
def Reflects (S : Scopes) (around : List Enclosure) : Prop :=
  List.Forall₂ (fun (scope : Scope) e => ∀ name, scope.has name ↔ name ∈ e.names) S around

/-! ### Names that are declared -/

namespace Scopes

/-- The innermost scope after a declaration has begun. -/
theorem has_declare (scope : Scope) (outer : Scopes) (name : String) :
    ∃ inner, declare (scope :: outer) name = inner :: outer ∧
      ∀ other, inner.has other ↔ other = name ∨ scope.has other := by
  refine ⟨_, rfl, fun other => ?_⟩
  by_cases held : scope.has name
  · rw [if_pos held]
    exact ⟨Or.inr, fun h => h.elim (fun same => same ▸ held) id⟩
  · rw [if_neg held, Table.has_set, Bool.or_eq_true, beq_iff_eq]

/-- The innermost scope after a declaration. -/
theorem has_introduce (scope : Scope) (outer : Scopes) (name : Token) :
    ∃ inner, introduce (scope :: outer) name = inner :: outer ∧
      ∀ other, inner.has other ↔ other = name.lexeme ∨ scope.has other := by
  obtain ⟨begun, declared, same⟩ := has_declare scope outer name.lexeme
  rw [introduce, declared]
  refine ⟨_, rfl, fun other => ?_⟩
  rw [Table.has_set, Bool.or_eq_true, beq_iff_eq, same]
  tauto

/-- The innermost scope after the parameters of a function were declared. -/
theorem has_introduceAll (scope : Scope) (outer : Scopes) (names : List Token) :
    ∃ inner, (introduceAll (scope :: outer) names).1 = inner :: outer ∧
      ∀ other, inner.has other ↔ other ∈ names.map Token.lexeme ∨ scope.has other := by
  induction names generalizing scope with
  | nil => exact ⟨scope, rfl, fun _ => by simp⟩
  | cons name names ih =>
      obtain ⟨first, introduced, same⟩ := has_introduce scope outer name
      obtain ⟨inner, rest, same'⟩ := ih first
      rw [introduceAll, introduced]
      refine ⟨inner, rest, fun other => ?_⟩
      rw [same', same, List.map_cons, List.mem_cons]
      tauto

end Scopes

/-- A statement that starts in a body binds what it declares. -/
theorem Enclosure.mem_names_append (owner : Owner) (begun : List Stmt) (s : Stmt) (name : String) :
    name ∈ (body owner (begun ++ [s])).names ↔
      name ∈ s.introduced.map Token.lexeme ∨ name ∈ (body owner begun).names := by
  simp only [names, Stmt.introducedAll, List.flatMap_append, List.flatMap_singleton,
    List.map_append, List.mem_append]
  tauto

namespace Reflects

variable {S : Scopes} {around : List Enclosure}

/-- The distance of a name is the lexical one. -/
theorem distance? (h : Reflects S around) (name : String) :
    S.distance? name = lexicalDistance? around name := by
  induction h with
  | nil => rfl
  | cons same _ ih =>
      rw [Scopes.distance?_cons, lexicalDistance?, List.findIdx?_cons, ih]
      simp only [same, decide_eq_true_eq]
      rfl

theorem block (h : Reflects S around) : Reflects ([] :: S) (.body .block [] :: around) := by
  refine .cons (fun _ => ?_) h
  simp [Enclosure.names, Owner.parameters, Stmt.introducedAll, Table.has]

theorem function (h : Reflects S around) (form : FunctionForm) (name : Token)
    (parameters : List Token) (statements : List Stmt) :
    Reflects (Scopes.introduceAll ([] :: S) parameters).1
      (.body (.function form ⟨name, parameters, statements⟩) [] :: around) := by
  obtain ⟨inner, introduced, same⟩ := Scopes.has_introduceAll [] S parameters
  rw [introduced]
  refine .cons (fun other => ?_) h
  rw [same]
  simp [Enclosure.names, Owner.parameters, Stmt.introducedAll, Table.has]

/-- A scope that holds one word. -/
theorem holding (h : Reflects S around) {word : String} {e : Enclosure} (names : e.names = [word]) :
    Reflects (Scope.holding word :: S) (e :: around) := by
  refine .cons (fun name => ?_) h
  rw [names, List.mem_singleton, Scope.holding, Table.has, Table.get?]
  by_cases same : word = name
  · simp [same]
  · simp [same, Ne.symm same]

/-- A declaration holds its name from its beginning on. -/
theorem of_introduce {name : Token} (h : Reflects (S.introduce name) around) :
    Reflects (S.declare name.lexeme) around := by
  cases S with
  | nil => exact h
  | cons scope outer =>
      obtain ⟨begun, declared, same⟩ := Scopes.has_declare scope outer name.lexeme
      obtain ⟨complete, introduced, same'⟩ := Scopes.has_introduce scope outer name
      rw [introduced] at h
      rw [declared]
      cases h with
      | cons head tail =>
          exact .cons (fun other => ((same other).trans (same' other).symm).trans (head other)) tail

theorem introduce {owner : Owner} {begun : List Stmt} {s : Stmt} {name : Token}
    (h : Reflects S (.body owner begun :: around)) (declares : s.introduced = [name]) :
    Reflects (S.introduce name) (.body owner (begun ++ [s]) :: around) := by
  cases h with
  | @cons scope _ outer _ head tail =>
      obtain ⟨inner, introduced, same⟩ := Scopes.has_introduce scope outer name
      rw [introduced]
      refine .cons (fun other => ?_) tail
      rw [same, head, Enclosure.mem_names_append, declares, List.map_singleton, List.mem_singleton]

theorem plain {owner : Owner} {begun : List Stmt} {s : Stmt}
    (h : Reflects S (.body owner begun :: around)) (declares : s.introduced = []) :
    Reflects S (.body owner (begun ++ [s]) :: around) := by
  cases h with
  | cons head tail =>
      refine .cons (fun other => ?_) tail
      rw [head, Enclosure.mem_names_append, declares]
      simp

/-- The scopes after a statement hold what the statements up to it declare. -/
theorem after {owner : Owner} {begun : List Stmt} {s : Stmt}
    (h : Reflects S (.body owner begun :: around)) (formed : ∀ n ∈ s.nodes, n.WellFormed) :
    Reflects (s.after S) (.body owner (begun ++ [s]) :: around) := by
  cases s with
  | var name initializer => exact h.introduce rfl
  | function d => exact h.introduce rfl
  | «class» name superclass methods => exact h.introduce rfl
  | _ =>
      rw [Stmt.after_of_isPlain S formed rfl]
      exact h.plain rfl

end Reflects

/-! ### Findings -/

def functionContext : FunctionForm → FunctionDecl → FunctionContext
  | .function, _ => .function
  | .method, declaration => methodContext declaration.name.lexeme

/-- What a place is in, as the analysis knows it. -/
def contextAt (around : List Enclosure) : Context where
  function := match enclosingFunction? around with
    | none => .none
    | some (form, declaration) => functionContext form declaration
  enclosing := match enclosingClass? around with
    | none => .none
    | some none => .base
    | some (some _) => .derived

/-- Another statement of a body changes nothing about what a place is in. -/
theorem contextAt_append (owner : Owner) (begun : List Stmt) (s : Stmt) (around : List Enclosure) :
    contextAt (.body owner (begun ++ [s]) :: around) = contextAt (.body owner begun :: around) := by
  cases owner <;> rfl

/-- Is this `this` outside of all classes? -/
def Occurrence.isStray (o : Occurrence) : Bool :=
  match o.node with
  | .expr (.this _ _) => (enclosingClass? o.around).isNone
  | _ => false

/-- The distance of the name at a node, if a construct around it binds the name. -/
def Occurrence.distance? (o : Occurrence) (name : Token) : Option Nat :=
  if o.isStray then none else lexicalDistance? o.around name.lexeme

def Occurrence.finding? (o : Occurrence) : Option Finding :=
  o.node.reference?.map fun p =>
    if o.isStray then .error ⟨.thisOutsideClass, p.2⟩
    else .binding ⟨p.1, p.2.lexeme, o.distance? p.2⟩

/-- Is this what was found out about a name, rather than about where a phrase stands? -/
def Finding.isReference : Finding → Bool
  | .binding _ => true
  | .error e => e.fault = .thisOutsideClass

/-- The findings about names are one for each reference among the occurrences, in their order. -/
def Settles (found : List Finding) (os : List Occurrence) : Prop :=
  found.filter Finding.isReference = os.filterMap Occurrence.finding?

def Aside (found : List Finding) : Prop := found.filter Finding.isReference = []

namespace Aside

theorem append {fs gs : List Finding} (h : Aside fs) (h' : Aside gs) : Aside (fs ++ gs) := by
  rw [Aside, List.filter_append, h, h', List.append_nil]

theorem findingIf (faulty : Bool) {fault : ScopeFault} (other : fault ≠ .thisOutsideClass)
    (culprit : Token) : Aside (findingIf faulty fault culprit) := by
  cases faulty with
  | false => rfl
  | true => simp [Aside, Lox.findingIf, Finding.isReference, other]

theorem declaration (S : Scopes) (name : Token) : Aside (declarationFindings S name) :=
  findingIf _ (by decide) _

theorem superclass (name : Token) (clause : Expr) : Aside (superclassFindings name clause) := by
  cases clause with
  | «variable» => exact findingIf _ (by decide) _
  | _ => rfl

theorem introduceAll (S : Scopes) (names : List Token) : Aside (S.introduceAll names).2 := by
  induction names generalizing S with
  | nil => rfl
  | cons name names ih => exact (declaration S name).append (ih (S.introduce name))

end Aside

namespace Settles

variable {fs gs : List Finding} {os ps : List Occurrence}

theorem nil : Settles [] [] := rfl

theorem append (h : Settles fs os) (h' : Settles gs ps) : Settles (fs ++ gs) (os ++ ps) := by
  rw [Settles, List.filter_append, List.filterMap_append, h, h']

theorem after (h : Settles gs ps) (aside : Aside fs) : Settles (fs ++ gs) ps := by
  rw [Settles, List.filter_append, aside, h, List.nil_append]

/-- A node without a name has nothing to be found out about. -/
theorem node (h : Settles fs os) (o : Occurrence) (refers : o.node.reference? = none) :
    Settles fs (os ++ [o]) := by
  have nothing : o.finding? = none := by simp [Occurrence.finding?, refers]
  rw [Settles, List.filterMap_append, h]
  simp [nothing]

/-- The name at a node is bound at its lexical distance. -/
theorem reference {S : Scopes} {around : List Enclosure} (reflects : Reflects S around) {n : Node}
    {site : Site} {name : Token} (refers : n.reference? = some (site, name))
    (placed : Occurrence.isStray ⟨around, n⟩ = false) :
    Settles (bind S site name) [⟨around, n⟩] := by
  have found : Occurrence.finding? ⟨around, n⟩ =
      some (.binding ⟨site, name.lexeme, S.distance? name.lexeme⟩) := by
    rw [Occurrence.finding?, refers, reflects.distance?]
    simp [placed, Occurrence.distance?]
  rw [Settles, List.filterMap_cons_some found]
  rfl

end Settles

mutual

theorem Expr.settles {S : Scopes} {around : List Enclosure} (h : Reflects S around)
    (pending : Option String) : ∀ e : Expr,
    Settles (e.findings (contextAt around) pending S) (e.occurrences around)
  | .literal _ => Settles.nil.node ⟨around, _⟩ rfl
  | .grouping a | .unary _ a | .get a _ => by
      rw [Expr.occurrences, Expr.nodes, List.map_append]
      exact (Expr.settles h pending a).node ⟨around, _⟩ rfl
  | .binary a _ b | .logical a _ b | .set b _ a => by
      rw [Expr.occurrences, Expr.nodes, List.map_append, List.map_append]
      exact ((Expr.settles h pending a).append (Expr.settles h pending b)).node ⟨around, _⟩ rfl
  | .variable site name => by
      rw [Expr.findings]
      exact (Settles.reference h (n := .expr (.variable site name)) rfl rfl).after
        (.findingIf _ (by decide) name)
  | .assign site name a => by
      rw [Expr.occurrences, Expr.nodes, List.map_append]
      exact (Expr.settles h pending a).append
        (Settles.reference h (n := .expr (.assign site name a)) rfl rfl)
  | .call a _ as => by
      rw [Expr.occurrences, Expr.nodes, List.map_append, List.map_append]
      exact ((Expr.settles h pending a).append (Expr.settlesAll h pending as)).node ⟨around, _⟩ rfl
  | .this site keyword => by
      rw [Expr.findings]
      cases hc : enclosingClass? around with
      | none =>
          rw [if_pos (by simp [contextAt, hc])]
          simp [Settles, Expr.occurrences, Expr.nodes, Occurrence.finding?, Node.reference?,
            Occurrence.isStray, hc, Finding.isReference]
      | some clause =>
          have inside : (contextAt around).enclosing ≠ .none := by
            cases clause <;> simp [contextAt, hc]
          rw [if_neg inside]
          exact Settles.reference h (n := .expr (.this site keyword)) rfl
            (by simp [Occurrence.isStray, hc])
  | .super site keyword method => by
      rw [Expr.findings]
      exact (Settles.reference h (n := .expr (.super site keyword method)) rfl rfl).after
        ((Aside.findingIf _ (by decide) keyword).append (.findingIf _ (by decide) keyword))

theorem Expr.settlesAll {S : Scopes} {around : List Enclosure} (h : Reflects S around)
    (pending : Option String) : ∀ es : List Expr,
    Settles (Expr.findingsAll (contextAt around) pending S es)
      ((Expr.nodesAll es).map fun n => ⟨around, n⟩)
  | [] => .nil
  | e :: es => by
      rw [Expr.findingsAll, Expr.nodesAll, List.map_append]
      exact (Expr.settles h pending e).append (Expr.settlesAll h pending es)

end

/-- A superclass clause is a name, for which the context does not matter. -/
theorem Expr.settles_of_isName {S : Scopes} {around : List Enclosure} (h : Reflects S around)
    (context : Context) {clause : Expr} (named : clause.isName) :
    Settles (clause.findings context none S) (clause.occurrences around) := by
  cases clause with
  | «variable» site name => exact Expr.settles h none (.variable site name)
  | _ => cases named

mutual

theorem Stmt.settles {S : Scopes} {around : List Enclosure} : ∀ s : Stmt,
    Reflects (s.after S) around → (∀ n ∈ s.nodes, n.WellFormed) →
    Settles (s.findings (contextAt around) S).2 (s.occurrences around)
  | .expression e, h, _ | .print e, h, _ => (Expr.settles h none e).node ⟨around, _⟩ rfl
  | .var name none, _, _ => by
      have nothing := Settles.nil.node ⟨around, .stmt (.var name none)⟩ rfl
      have found := nothing.after (.declaration S name)
      rwa [List.append_nil] at found
  | .var name (some e), h, _ =>
      ((Expr.settles h.of_introduce _ e).after (.declaration S name)).node ⟨around, _⟩ rfl
  | .block body, h, formed => by
      have inside : ∀ n ∈ Stmt.nodesAll body, n.WellFormed :=
        fun n hn => formed n (by simp [Stmt.nodes, hn])
      exact (Stmt.settlesAll .block body h.block inside).node ⟨around, _⟩ rfl
  | .branch e s none, h, formed | .while e s, h, formed => by
      have inside : ∀ n ∈ s.nodes, n.WellFormed := fun n hn => formed n (by simp [Stmt.nodes, hn])
      have plain : s.after S = S :=
        Stmt.after_of_isPlain S inside (formed _ (Stmt.self_mem_nodes _))
      have here : Reflects S around := plain ▸ h
      exact ((Expr.settles here none e).append (Stmt.settles s h inside)).node ⟨around, _⟩ rfl
  | .branch e s (some s'), h, formed => by
      have first : ∀ n ∈ s.nodes, n.WellFormed := fun n hn => formed n (by simp [Stmt.nodes, hn])
      have second : ∀ n ∈ s'.nodes, n.WellFormed := fun n hn => formed n (by simp [Stmt.nodes, hn])
      have plain : s.isPlain ∧ s'.isPlain := formed _ (Stmt.self_mem_nodes _)
      have same : s.after S = S := Stmt.after_of_isPlain S first plain.1
      have same' : s'.after S = S := Stmt.after_of_isPlain S second plain.2
      rw [Stmt.after, same, same'] at h
      have last : Settles (s'.findings (contextAt around) (s.findings (contextAt around) S).1).2
          (s'.occurrences around) := by
        rw [Stmt.findings_fst, same]
        exact Stmt.settles s' (same'.symm ▸ h) second
      exact (((Expr.settles h none e).append (Stmt.settles s (same.symm ▸ h) first)).append
        last).node ⟨around, _⟩ rfl
  | .function d, h, formed => by
      have inside : ∀ n ∈ d.nodes, n.WellFormed := fun n hn => formed n (by simp [Stmt.nodes, hn])
      exact ((FunctionDecl.settles .function d h inside).after (.declaration S d.name)).node
        ⟨around, _⟩ rfl
  | .return keyword none, _, _ => by
      have nothing := Settles.nil.node ⟨around, .stmt (.return keyword none)⟩ rfl
      have aside : Aside (findingIf ((contextAt around).function = .none) .returnOutsideFunction
        keyword) := .findingIf _ (by decide) keyword
      have found := nothing.after aside
      rwa [List.append_nil] at found
  | .return keyword (some e), h, _ =>
      ((Expr.settles h none e).after
        ((Aside.findingIf _ (by decide) keyword).append (.findingIf _ (by decide) keyword))).node
        ⟨around, _⟩ rfl
  | .class name none ds, h, formed => by
      have inside : ∀ n ∈ Stmt.nodesOfMethods ds, n.WellFormed :=
        fun n hn => formed n (by simp [Stmt.nodes, hn])
      have methods := Stmt.settlesOfMethods ds (h.holding (e := .methods none) rfl) inside
      exact (methods.after (.declaration S name)).node ⟨around, _⟩ rfl
  | .class name (some e) ds, h, formed => by
      have here := formed _ (Stmt.self_mem_nodes (.class name (some e) ds))
      have inside : ∀ n ∈ Stmt.nodesOfMethods ds, n.WellFormed :=
        fun n hn => formed n (by simp [Stmt.nodes, hn])
      have methods := Stmt.settlesOfMethods ds
        ((h.holding (e := .inherited) rfl).holding (e := .methods (some e)) rfl) inside
      have clause := (Expr.settles_of_isName h
        { contextAt around with enclosing := .derived } (here.2.1 e rfl)).after
          ((Aside.declaration S name).append (.superclass name e))
      exact (clause.append methods).node ⟨around, _⟩ rfl

theorem Stmt.settlesAll {S : Scopes} {around : List Enclosure} (owner : Owner)
    {begun : List Stmt} : ∀ ss : List Stmt, Reflects S (.body owner begun :: around) →
    (∀ n ∈ Stmt.nodesAll ss, n.WellFormed) →
    Settles (Stmt.findingsAll (contextAt (.body owner begun :: around)) S ss)
      (Stmt.occurrencesAll owner around begun ss)
  | [], _, _ => .nil
  | s :: ss, h, formed => by
      rw [Stmt.nodesAll, List.forall_mem_append] at formed
      rw [Stmt.findingsAll_cons, Stmt.occurrencesAll, ← contextAt_append owner begun s around]
      have after := h.after formed.1
      exact (Stmt.settles s after formed.1).append (Stmt.settlesAll owner ss after formed.2)

theorem Stmt.settlesOfMethods {S : Scopes} {around : List Enclosure} : ∀ ds : List FunctionDecl,
    Reflects S around → (∀ n ∈ Stmt.nodesOfMethods ds, n.WellFormed) →
    Settles (Stmt.findingsOfMethods (contextAt around) S ds)
      (Stmt.occurrencesOfMethods around ds)
  | [], _, _ => .nil
  | d :: ds, h, formed => by
      rw [Stmt.nodesOfMethods, List.forall_mem_append] at formed
      exact (FunctionDecl.settles .method d h formed.1).append
        (Stmt.settlesOfMethods ds h formed.2)

theorem FunctionDecl.settles {S : Scopes} {around : List Enclosure} (form : FunctionForm) :
    ∀ d : FunctionDecl, Reflects S around → (∀ n ∈ d.nodes, n.WellFormed) →
    Settles (d.findings (functionContext form d) (contextAt around) S)
      (d.occurrences form around)
  | ⟨name, parameters, body⟩, h, formed =>
      (Stmt.settlesAll (.function form ⟨name, parameters, body⟩) body
        (h.function form name parameters body) formed).after (.introduceAll _ parameters)

end

/-- What is found out about the names of a program can be read off the tree. -/
theorem settles_analyze {ss : List Stmt} (formed : ∀ n ∈ Stmt.nodesAll ss, n.WellFormed) :
    Settles (analyze ss) (occurrences ss) := by
  induction ss with
  | nil => exact .nil
  | cons s ss ih =>
      rw [Stmt.nodesAll, List.forall_mem_append] at formed
      rw [analyze, Stmt.findingsAll_cons, occurrences, List.flatMap_cons, Stmt.after_nil]
      have top : Reflects (s.after []) [] := by
        rw [Stmt.after_nil]
        exact .nil
      exact (Stmt.settles s top formed.1).append (ih formed.2)

/-! ### Recorded distances -/

/-- What is found out about where phrases stand binds nothing. -/
theorem bindingsOf_filter_isReference (found : List Finding) :
    bindingsOf (found.filter Finding.isReference) = bindingsOf found := by
  rw [bindingsOf, bindingsOf, List.filterMap_filter]
  refine List.filterMap_congr fun f _ => ?_
  cases f with
  | binding b => rfl
  | error e => exact ite_self _

/-- The bindings are those of the references. -/
theorem Settles.mem_bindingsOf {found : List Finding} {os : List Occurrence}
    (h : Settles found os) {b : Binding} :
    b ∈ bindingsOf found ↔ ∃ o ∈ os, o.finding? = some (.binding b) := by
  rw [← bindingsOf_filter_isReference, h, bindingsOf]
  simp only [List.mem_filterMap]
  constructor
  · rintro ⟨_ | _, ⟨o, ho, found⟩, same⟩
    · cases same
      exact ⟨o, ho, found⟩
    · cases same
  · rintro ⟨o, ho, found⟩
    exact ⟨_, ⟨o, ho, found⟩, rfl⟩

namespace Occurrence

def site? (o : Occurrence) : Option Site := o.node.reference?.map Prod.fst

/-- No two references of a program have the same site. -/
theorem eq_of_site? {ss : List Stmt} (numbered : (sitesOf (Stmt.nodesAll ss)).Nodup)
    {o o' : Occurrence} (ho : o ∈ occurrences ss) (ho' : o' ∈ occurrences ss) {site : Site}
    (placed : o.site? = some site) (placed' : o'.site? = some site) : o = o' := by
  have nodup : ((occurrences ss).filterMap site?).Nodup := by
    rw [← map_node_occurrences, sitesOf, List.filterMap_map] at numbered
    exact numbered
  have apart := List.pairwise_filterMap.1 nodup
  have : Std.Symm fun o o' : Occurrence => ∀ s, o.site? = some s → ∀ s', o'.site? = some s' →
      s ≠ s' := ⟨fun _ _ h s hs s' hs' => (h s' hs' s hs).symm⟩
  by_contra other
  exact apart.forall ho ho' other site placed site placed' rfl

/-- What is bound is no stray `this`. -/
theorem of_finding? {o : Occurrence} {b : Binding} (found : o.finding? = some (.binding b)) :
    o.site? = some b.site ∧ o.isStray = false := by
  obtain ⟨p, refers, same⟩ := Option.map_eq_some_iff.1 found
  cases stray : o.isStray with
  | true => simp [stray] at same
  | false =>
      rw [stray, if_neg Bool.false_ne_true, Finding.binding.injEq] at same
      exact ⟨by rw [site?, refers, ← same, Option.map_some], rfl⟩

variable {ss : List Stmt} {o : Occurrence} {site : Site} {name : Token}

/-- The distance that is recorded for a reference of a program. -/
theorem recorded (numbered : (sitesOf (Stmt.nodesAll ss)).Nodup)
    (formed : ∀ n ∈ Stmt.nodesAll ss, n.WellFormed) (known : Std.TreeMap Site Nat)
    (ho : o ∈ occurrences ss) (refers : o.node.reference? = some (site, name)) :
    (Lox.recorded known (bindingsOf (analyze ss)))[site]? = (o.distance? name).or known[site]? := by
  have settles := settles_analyze formed
  cases stray : o.isStray with
  | false =>
      have binding : ⟨site, name.lexeme, o.distance? name⟩ ∈ bindingsOf (analyze ss) :=
        settles.mem_bindingsOf.2 ⟨o, ho, by simp [finding?, refers, stray]⟩
      have nodup := numbered.sublist (sites_analyze_sublist ss)
      exact getElem?_recorded_or known nodup binding
  | true =>
      have unbound : site ∉ (bindingsOf (analyze ss)).map Binding.site := by
        rintro hs
        obtain ⟨b, hb, rfl⟩ := List.mem_map.1 hs
        obtain ⟨o', ho', found⟩ := settles.mem_bindingsOf.1 hb
        obtain ⟨placed, inside⟩ := of_finding? found
        obtain rfl := eq_of_site? numbered ho ho' (by simp [site?, refers]) placed
        exact Bool.false_ne_true (inside.symm.trans stray)
      rw [getElem?_recorded_of_not_mem known unbound, distance?, if_pos stray, Option.none_or]

end Occurrence

/-- What the grammar yields has every reference once, with a site of its own.  The analysis finds
out one thing about each of them, and the distance that is recorded for it is its lexical distance;
for a name that no construct around it binds, and for `this` outside of a class, nothing is
recorded. -/
theorem recorded_lexically (tokens : List Token) (firstSite : Site) (m : Machine) :
    let statements := (parse tokens firstSite).statements
    let findings := analyze statements
    (occurrences statements).map Occurrence.node = Stmt.nodesAll statements ∧
      (sitesOf (Stmt.nodesAll statements)).Nodup ∧
      findings.filter Finding.isReference =
        (occurrences statements).filterMap Occurrence.finding? ∧
      ∀ o ∈ occurrences statements, ∀ site name, o.node.reference? = some (site, name) →
        (m.recordAll (bindingsOf findings)).distances[site]? =
          (o.distance? name).or m.distances[site]? := by
  intro statements findings
  obtain ⟨_, built, -⟩ := parse_built tokens firstSite
  refine ⟨map_node_occurrences statements, built.nodup, settles_analyze built.formed, ?_⟩
  intro o ho site name refers
  rw [Machine.recordAll_eq]
  exact Occurrence.recorded built.nodup built.formed m.distances ho refers

/-- A method of a class in a block, with a block in its body in turn. -/
theorem recorded_lexically_super :
    let source := "\x7b class B < A \x7b m(x) \x7b var y;
      \x7b return super.m(y = this); \x7d \x7d \x7d \x7d"
    let statements := (parse (tokensOf (scan source)) 0).statements
    ∃ o ∈ occurrences statements, ∃ site name, o.node.reference? = some (site, name) ∧
      name.lexeme = "super" ∧
      ((Machine.initial .unlimited fun _ => 0).recordAll
        (bindingsOf (analyze statements))).distances[site]? = some 3 := by
  intro source statements
  have stands : (occurrences statements).any fun o => o.node.reference?.any fun p =>
      p.2.lexeme = "super" ∧ o.distance? p.2 = some 3 := by decide +kernel
  obtain ⟨o, ho, refers⟩ := List.any_eq_true.1 stands
  obtain ⟨⟨site, name⟩, refers, found⟩ := (Option.any_eq_true _ _).1 refers
  obtain ⟨super, far⟩ := of_decide_eq_true found
  refine ⟨o, ho, site, name, refers, super, ?_⟩
  rw [(recorded_lexically _ 0 _).2.2.2 o ho site name refers, far]
  rfl

end Lox
