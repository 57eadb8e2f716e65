import Lox.Proofs.Program.Node
import Lox.Scope.Analysis

/-!
# Visits of the static analysis

A `Visit` is a moment of the static analysis: the node that it comes to and the scopes that it has
around it.  `Stmt.visits` lists the visits of a statement, and `Stmt.after` is what the scopes have
become behind it.

The bindings that the analysis finds are those of its visits (`Records`): every reference among the
visited nodes is bound by the scopes of its visit, except that `this` outside of a class is an error
instead.
-/

namespace Lox

/-- A node and the scopes around it when the static analysis comes to it. -/
structure Visit where
  scopes : Scopes
  /-- The class whose superclass clause the node belongs to.  Its name is declared, but there is no
  class yet. -/
  pending : Option String
  node : Node

def Visit.binding? (v : Visit) : Option Binding :=
  v.node.reference?.map fun p => ⟨p.1, p.2.lexeme, v.scopes.distance? p.2.lexeme⟩

def Expr.visits (pending : Option String) (scopes : Scopes) (e : Expr) : List Visit :=
  e.nodes.map fun n => ⟨scopes, pending, n⟩

def Stmt.after (scopes : Scopes) : Stmt → Scopes
  | .var name _ => scopes.introduce name
  | .branch _ consequence none => consequence.after scopes
  | .branch _ consequence (some alternative) => alternative.after (consequence.after scopes)
  | .while _ body => body.after scopes
  | .function declaration => scopes.introduce declaration.name
  | .class name _ _ => scopes.introduce name
  | _ => scopes
termination_by structural s => s

/-- The scopes at the beginning of the body of a function. -/
def FunctionDecl.inside (scopes : Scopes) (d : FunctionDecl) : Scopes :=
  (Scopes.introduceAll ([] :: scopes) d.parameters).1

mutual

def Stmt.visits (scopes : Scopes) : Stmt → List Visit
  | .expression value =>
    value.visits none scopes ++ [⟨scopes, none, .stmt (.expression value)⟩]
  | .print value => value.visits none scopes ++ [⟨scopes, none, .stmt (.print value)⟩]
  | .var name none => [⟨scopes, none, .stmt (.var name none)⟩]
  | .var name (some value) =>
    value.visits none (scopes.declare name.lexeme) ++
      [⟨scopes, none, .stmt (.var name (some value))⟩]
  | .block body =>
    Stmt.visitsAll ([] :: scopes) body ++ [⟨scopes, none, .stmt (.block body)⟩]
  | .branch condition consequence none =>
    condition.visits none scopes ++ consequence.visits scopes ++
      [⟨scopes, none, .stmt (.branch condition consequence none)⟩]
  | .branch condition consequence (some alternative) =>
    condition.visits none scopes ++ consequence.visits scopes ++
      alternative.visits (consequence.after scopes) ++
      [⟨scopes, none, .stmt (.branch condition consequence (some alternative))⟩]
  | .while condition body =>
    condition.visits none scopes ++ body.visits scopes ++
      [⟨scopes, none, .stmt (.while condition body)⟩]
  | .function declaration =>
    declaration.visits (scopes.introduce declaration.name) ++
      [⟨scopes, none, .stmt (.function declaration)⟩]
  | .return keyword none => [⟨scopes, none, .stmt (.return keyword none)⟩]
  | .return keyword (some value) =>
    value.visits none scopes ++ [⟨scopes, none, .stmt (.return keyword (some value))⟩]
  | .class name none methods =>
    Stmt.visitsOfMethods (Scope.holding "this" :: scopes.introduce name) methods ++
      [⟨scopes, none, .stmt (.class name none methods)⟩]
  | .class name (some superclass) methods =>
    superclass.visits (some name.lexeme) (scopes.introduce name) ++
      Stmt.visitsOfMethods
        (Scope.holding "this" :: Scope.holding "super" :: scopes.introduce name) methods ++
      [⟨scopes, none, .stmt (.class name (some superclass) methods)⟩]
termination_by structural s => s

def Stmt.visitsAll (scopes : Scopes) : List Stmt → List Visit
  | [] => []
  | s :: ss => s.visits scopes ++ Stmt.visitsAll (s.after scopes) ss
termination_by structural ss => ss

def Stmt.visitsOfMethods (scopes : Scopes) : List FunctionDecl → List Visit
  | [] => []
  | d :: ds => d.visits scopes ++ Stmt.visitsOfMethods scopes ds
termination_by structural ds => ds

def FunctionDecl.visits (scopes : Scopes) : FunctionDecl → List Visit
  | ⟨_, parameters, body⟩ =>
    Stmt.visitsAll (Scopes.introduceAll ([] :: scopes) parameters).1 body
termination_by structural d => d

end

/-! ### Visited nodes -/

@[simp] theorem Expr.map_node_visits (pending : Option String) (scopes : Scopes) (e : Expr) :
    (e.visits pending scopes).map Visit.node = e.nodes := by
  simp [Expr.visits, Function.comp_def]

mutual

@[simp] theorem Stmt.map_node_visits : ∀ (scopes : Scopes) (s : Stmt),
    (s.visits scopes).map Visit.node = s.nodes
  | _, .expression _ | _, .print _ | _, .var _ none | _, .var _ (some _)
  | _, .return _ none | _, .return _ (some _) => by simp [Stmt.visits, Stmt.nodes]
  | _, .block body => by simp [Stmt.visits, Stmt.nodes, Stmt.map_node_visitsAll _ body]
  | _, .branch _ s none | _, .while _ s => by
      simp [Stmt.visits, Stmt.nodes, Stmt.map_node_visits _ s]
  | _, .branch _ s (some s') => by
      simp [Stmt.visits, Stmt.nodes, Stmt.map_node_visits _ s, Stmt.map_node_visits _ s']
  | _, .function d => by simp [Stmt.visits, Stmt.nodes, FunctionDecl.map_node_visits _ d]
  | _, .class _ none ds | _, .class _ (some _) ds => by
      simp [Stmt.visits, Stmt.nodes, Stmt.map_node_visitsOfMethods _ ds]

@[simp] theorem Stmt.map_node_visitsAll : ∀ (scopes : Scopes) (ss : List Stmt),
    (Stmt.visitsAll scopes ss).map Visit.node = Stmt.nodesAll ss
  | _, [] => rfl
  | _, s :: ss => by
      simp [Stmt.visitsAll, Stmt.nodesAll, Stmt.map_node_visits _ s, Stmt.map_node_visitsAll _ ss]

@[simp] theorem Stmt.map_node_visitsOfMethods : ∀ (scopes : Scopes) (ds : List FunctionDecl),
    (Stmt.visitsOfMethods scopes ds).map Visit.node = Stmt.nodesOfMethods ds
  | _, [] => rfl
  | _, d :: ds => by
      simp [Stmt.visitsOfMethods, Stmt.nodesOfMethods, FunctionDecl.map_node_visits _ d,
        Stmt.map_node_visitsOfMethods _ ds]

@[simp] theorem FunctionDecl.map_node_visits : ∀ (scopes : Scopes) (d : FunctionDecl),
    (d.visits scopes).map Visit.node = d.nodes
  | _, ⟨_, _, body⟩ => Stmt.map_node_visitsAll _ body

end

/-! ### Scopes after a statement -/

theorem Stmt.findings_fst (context : Context) : ∀ (scopes : Scopes) (s : Stmt),
    (s.findings context scopes).1 = s.after scopes
  | _, .expression _ | _, .print _ | _, .var _ none | _, .var _ (some _) | _, .block _
  | _, .function _ | _, .return _ none | _, .return _ (some _) | _, .class _ none _
  | _, .class _ (some _) _ => rfl
  | scopes, .branch _ s none | scopes, .while _ s => Stmt.findings_fst context scopes s
  | scopes, .branch _ s (some s') => by
      rw [Stmt.after, ← Stmt.findings_fst context scopes s]
      exact Stmt.findings_fst context _ s'

theorem Stmt.findingsAll_cons (context : Context) (scopes : Scopes) (s : Stmt) (ss : List Stmt) :
    Stmt.findingsAll context scopes (s :: ss) =
      (s.findings context scopes).2 ++ Stmt.findingsAll context (s.after scopes) ss := by
  rw [← Stmt.findings_fst context]
  rfl

/-- The statements of a program are in no scope. -/
theorem Stmt.after_nil : ∀ s : Stmt, s.after [] = []
  | .expression _ | .print _ | .var _ _ | .block _ | .function _ | .return _ _
  | .class _ _ _ => rfl
  | .branch _ s none | .while _ s => by rw [Stmt.after, Stmt.after_nil s]
  | .branch _ s (some s') => by rw [Stmt.after, Stmt.after_nil s, Stmt.after_nil s']

/-- Statements of a program are analyzed one by one. -/
theorem analyze_append (ss ss' : List Stmt) :
    analyze (ss ++ ss') = analyze ss ++ analyze ss' := by
  induction ss with
  | nil => rfl
  | cons s ss ih =>
      rw [analyze, analyze, List.cons_append, Stmt.findingsAll_cons, Stmt.findingsAll_cons,
        Stmt.after_nil, List.append_assoc]
      exact congrArg (_ ++ ·) ih

/-- The node of a statement is among its nodes. -/
theorem Stmt.self_mem_nodes (s : Stmt) : .stmt s ∈ s.nodes := by
  cases s with
  | var name initializer => cases initializer <;> simp [Stmt.nodes]
  | branch condition consequence alternative => cases alternative <;> simp [Stmt.nodes]
  | «return» keyword value => cases value <;> simp [Stmt.nodes]
  | «class» name superclass methods => cases superclass <;> simp [Stmt.nodes]
  | _ => simp [Stmt.nodes]

theorem Expr.self_mem_nodes (e : Expr) : .expr e ∈ e.nodes := by
  cases e <;> simp [Expr.nodes]

/-- A statement is visited with the scopes before it. -/
theorem Stmt.self_mem_visits (scopes : Scopes) (s : Stmt) :
    (⟨scopes, none, .stmt s⟩ : Visit) ∈ s.visits scopes := by
  cases s with
  | var name initializer => cases initializer <;> simp [Stmt.visits]
  | branch condition consequence alternative => cases alternative <;> simp [Stmt.visits]
  | «return» keyword value => cases value <;> simp [Stmt.visits]
  | «class» name superclass methods => cases superclass <;> simp [Stmt.visits]
  | _ => simp [Stmt.visits]

/-- What is no declaration leaves the scopes as they are. -/
theorem Stmt.after_of_isPlain : ∀ {s : Stmt} (scopes : Scopes),
    (∀ n ∈ s.nodes, n.WellFormed) → s.isPlain → s.after scopes = scopes
  | .expression _, _, _, _ | .print _, _, _, _ | .block _, _, _, _ | .return _ _, _, _, _ => rfl
  | .branch c s none, scopes, formed, _ | .while c s, scopes, formed, _ => by
      have inside : ∀ n ∈ s.nodes, n.WellFormed := fun n hn => formed n (by simp [Stmt.nodes, hn])
      rw [Stmt.after]
      exact Stmt.after_of_isPlain scopes inside (formed _ (Stmt.self_mem_nodes _))
  | .branch c s (some s'), scopes, formed, _ => by
      have first : ∀ n ∈ s.nodes, n.WellFormed := fun n hn => formed n (by simp [Stmt.nodes, hn])
      have second : ∀ n ∈ s'.nodes, n.WellFormed := fun n hn => formed n (by simp [Stmt.nodes, hn])
      have plain : s.isPlain ∧ s'.isPlain := formed _ (Stmt.self_mem_nodes _)
      rw [Stmt.after, Stmt.after_of_isPlain scopes first plain.1]
      exact Stmt.after_of_isPlain scopes second plain.2

/-! ### Bindings -/

@[simp] theorem bindingsOf_append (fs gs : List Finding) :
    bindingsOf (fs ++ gs) = bindingsOf fs ++ bindingsOf gs := List.filterMap_append

@[simp] theorem scopeErrorsOf_nil : scopeErrorsOf [] = [] := rfl

@[simp] theorem scopeErrorsOf_append (fs gs : List Finding) :
    scopeErrorsOf (fs ++ gs) = scopeErrorsOf fs ++ scopeErrorsOf gs := List.filterMap_append

/-- Faults that may be there bind nothing. -/
@[simp] theorem bindingsOf_findingIf (faulty : Bool) (fault : ScopeFault) (culprit : Token) :
    bindingsOf (findingIf faulty fault culprit) = [] := by
  cases faulty <;> rfl

@[simp] theorem scopeErrorsOf_findingIf (faulty : Bool) (fault : ScopeFault) (culprit : Token) :
    scopeErrorsOf (findingIf faulty fault culprit) = [] ↔ faulty = false := by
  cases faulty <;> simp [findingIf, scopeErrorsOf]

@[simp] theorem scopeErrorsOf_bind (scopes : Scopes) (site : Site) (name : Token) :
    scopeErrorsOf (bind scopes site name) = [] := rfl

/-- Can the visited node be evaluated at its place?  A variable cannot be read in its own
initializer. -/
def Visit.Ready (v : Visit) : Prop :=
  ∀ site name, v.node = .expr (.variable site name) → v.scopes.isBegun name.lexeme = false

/-- The findings are those of the visits: they bind what the visits refer to, and nothing is missing
unless there is an error. -/
structure Records (found : List Finding) (visits : List Visit) : Prop where
  bindings : (bindingsOf found).Sublist (visits.filterMap Visit.binding?)
  complete : scopeErrorsOf found = [] → bindingsOf found = visits.filterMap Visit.binding?
  ready : scopeErrorsOf found = [] → ∀ v ∈ visits, v.Ready

namespace Records

theorem nil : Records [] [] := ⟨.slnil, fun _ => rfl, fun _ _ h => by cases h⟩

theorem append {fs gs : List Finding} {us vs : List Visit} (h : Records fs us)
    (h' : Records gs vs) : Records (fs ++ gs) (us ++ vs) where
  bindings := by
    rw [bindingsOf_append, List.filterMap_append]
    exact h.bindings.append h'.bindings
  complete none := by
    rw [scopeErrorsOf_append, List.append_eq_nil_iff] at none
    rw [bindingsOf_append, List.filterMap_append, h.complete none.1, h'.complete none.2]
  ready none v hv := by
    rw [scopeErrorsOf_append, List.append_eq_nil_iff] at none
    exact (List.mem_append.1 hv).elim (h.ready none.1 v) (h'.ready none.2 v)

/-- Faults in front do not matter. -/
theorem faults {fs gs : List Finding} {vs : List Visit} (h : Records gs vs)
    (binds : bindingsOf fs = []) : Records (fs ++ gs) vs where
  bindings := by simpa [binds] using h.bindings
  complete none := by
    rw [scopeErrorsOf_append, List.append_eq_nil_iff] at none
    simpa [binds] using h.complete none.2
  ready none := by
    rw [scopeErrorsOf_append, List.append_eq_nil_iff] at none
    exact h.ready none.2

/-- A node that refers to no name has nothing to bind. -/
theorem node {fs : List Finding} {vs : List Visit} (h : Records fs vs) (v : Visit)
    (refers : v.node.reference? = none) : Records fs (vs ++ [v]) := by
  have binds : v.binding? = none := by simp [Visit.binding?, refers]
  refine ⟨?_, fun none => ?_, fun none u hu => ?_⟩
  · simpa [binds] using h.bindings
  · simpa [binds] using h.complete none
  · rcases List.mem_append.1 hu with hu | hu
    · exact h.ready none u hu
    · obtain rfl := List.mem_singleton.1 hu
      rintro site name hn
      simp [hn, Node.reference?] at refers

/-- What a node refers to is bound by the scopes of its visit. -/
theorem reference {fs : List Finding} {vs : List Visit} (h : Records fs vs) (v : Visit)
    {site : Site} {name : Token} (refers : v.node.reference? = some (site, name))
    (ready : scopeErrorsOf fs = [] → v.Ready) :
    Records (fs ++ bind v.scopes site name) (vs ++ [v]) := by
  have binds : v.binding? = some ⟨site, name.lexeme, v.scopes.distance? name.lexeme⟩ := by
    simp [Visit.binding?, refers]
  have bound : bindingsOf (bind v.scopes site name) =
      [⟨site, name.lexeme, v.scopes.distance? name.lexeme⟩] := rfl
  refine ⟨?_, fun none => ?_, fun none u hu => ?_⟩
  · simpa [binds, bound] using h.bindings
  · rw [scopeErrorsOf_append, List.append_eq_nil_iff] at none
    simpa [binds, bound] using h.complete none.1
  · rw [scopeErrorsOf_append, List.append_eq_nil_iff] at none
    rcases List.mem_append.1 hu with hu | hu
    · exact h.ready none.1 u hu
    · exact List.mem_singleton.1 hu ▸ ready none.1

end Records

mutual

theorem Expr.records (context : Context) (name : Option String) (pending : Option String)
    (scopes : Scopes) : ∀ e : Expr,
    Records (e.findings context name scopes) (e.visits pending scopes)
  | .literal _ => Records.nil.node ⟨scopes, pending, _⟩ rfl
  | .grouping a | .unary _ a => by
      rw [Expr.findings, Expr.visits, Expr.nodes, List.map_append]
      exact (Expr.records context name pending scopes a).node ⟨scopes, pending, _⟩ rfl
  | .binary a _ b | .logical a _ b => by
      rw [Expr.findings, Expr.visits, Expr.nodes, List.map_append, List.map_append]
      exact ((Expr.records context name pending scopes a).append
        (Expr.records context name pending scopes b)).node ⟨scopes, pending, _⟩ rfl
  | .variable site n => by
      have fault := Records.nil.faults (bindingsOf_findingIf (scopes.isBegun n.lexeme ||
        (name == some n.lexeme && (scopes.distance? n.lexeme).isNone)) .readInInitializer n)
      rw [List.append_nil] at fault
      refine fault.reference ⟨scopes, pending, .expr (.variable site n)⟩ rfl fun none => ?_
      rw [scopeErrorsOf_findingIf, Bool.or_eq_false_iff] at none
      rintro site' n' hn
      cases hn
      exact none.1
  | .assign site n a => by
      rw [Expr.findings, Expr.visits, Expr.nodes, List.map_append]
      refine (Expr.records context name pending scopes a).reference
        ⟨scopes, pending, .expr (.assign site n a)⟩ rfl fun _ => ?_
      rintro _ _ hn
      cases hn
  | .call a _ as => by
      rw [Expr.findings, Expr.visits, Expr.nodes, List.map_append, List.map_append]
      exact ((Expr.records context name pending scopes a).append
        (Expr.recordsAll context name pending scopes as)).node ⟨scopes, pending, _⟩ rfl
  | .get a _ => by
      rw [Expr.findings, Expr.visits, Expr.nodes, List.map_append]
      exact (Expr.records context name pending scopes a).node ⟨scopes, pending, _⟩ rfl
  | .set a _ b => by
      rw [Expr.findings, Expr.visits, Expr.nodes, List.map_append, List.map_append]
      exact ((Expr.records context name pending scopes b).append
        (Expr.records context name pending scopes a)).node ⟨scopes, pending, _⟩ rfl
  | .this site keyword => by
      rw [Expr.findings]
      split
      · exact ⟨List.nil_sublist _, fun none => by simp [scopeErrorsOf] at none,
          fun none => by simp [scopeErrorsOf] at none⟩
      · refine Records.nil.reference ⟨scopes, pending, .expr (.this site keyword)⟩ rfl fun _ => ?_
        rintro _ _ hn
        cases hn
  | .super site keyword method => by
      rw [Expr.findings]
      refine (Records.nil.reference ⟨scopes, pending, .expr (.super site keyword method)⟩ rfl
        fun _ => ?_).faults ?_
      · rintro _ _ hn
        cases hn
      · simp

theorem Expr.recordsAll (context : Context) (name : Option String) (pending : Option String)
    (scopes : Scopes) : ∀ es : List Expr,
    Records (Expr.findingsAll context name scopes es)
      ((Expr.nodesAll es).map fun n => ⟨scopes, pending, n⟩)
  | [] => .nil
  | e :: es => by
      rw [Expr.findingsAll, Expr.nodesAll, List.map_append]
      exact (Expr.records context name pending scopes e).append
        (Expr.recordsAll context name pending scopes es)

end

theorem bindingsOf_declarationFindings (scopes : Scopes) (name : Token) :
    bindingsOf (declarationFindings scopes name) = [] := bindingsOf_findingIf _ _ _

theorem bindingsOf_superclassFindings (name : Token) (clause : Expr) :
    bindingsOf (superclassFindings name clause) = [] := by
  cases clause with
  | «variable» => exact bindingsOf_findingIf _ _ _
  | _ => rfl

theorem bindingsOf_introduceAll (scopes : Scopes) (names : List Token) :
    bindingsOf (scopes.introduceAll names).2 = [] := by
  induction names generalizing scopes with
  | nil => rfl
  | cons name names ih =>
      change bindingsOf (declarationFindings scopes name ++ _) = []
      rw [bindingsOf_append, bindingsOf_declarationFindings, ih]
      rfl

mutual

theorem Stmt.records (context : Context) (scopes : Scopes) : ∀ s : Stmt,
    Records (s.findings context scopes).2 (s.visits scopes)
  | .expression e => (e.records context none none scopes).node ⟨scopes, none, _⟩ rfl
  | .print e => (e.records context none none scopes).node ⟨scopes, none, _⟩ rfl
  | .var name none => by
      have nothing := Records.nil.node ⟨scopes, none, .stmt (.var name none)⟩ rfl
      have found := nothing.faults (bindingsOf_declarationFindings scopes name)
      rwa [List.append_nil] at found
  | .var name (some e) =>
      ((e.records context _ none (scopes.declare name.lexeme)).faults
        (bindingsOf_declarationFindings scopes name)).node ⟨scopes, none, _⟩ rfl
  | .block body => (Stmt.recordsAll context ([] :: scopes) body).node ⟨scopes, none, _⟩ rfl
  | .branch e s none =>
      ((e.records context none none scopes).append
        (Stmt.records context scopes s)).node ⟨scopes, none, _⟩ rfl
  | .branch e s (some s') => by
      have second := Stmt.records context (s.findings context scopes).1 s'
      rw [Stmt.findings_fst] at second
      have all := (((e.records context none none scopes).append
        (Stmt.records context scopes s)).append second).node
        ⟨scopes, none, .stmt (.branch e s (some s'))⟩ rfl
      rw [← Stmt.findings_fst context] at all
      rw [Stmt.visits, ← Stmt.findings_fst context]
      exact all
  | .while e s =>
      ((e.records context none none scopes).append
        (Stmt.records context scopes s)).node ⟨scopes, none, _⟩ rfl
  | .function d =>
      ((FunctionDecl.records .function context (scopes.introduce d.name) d).faults
        (bindingsOf_declarationFindings scopes d.name)).node ⟨scopes, none, _⟩ rfl
  | .return keyword none => by
      have nothing := Records.nil.node ⟨scopes, none, .stmt (.return keyword none)⟩ rfl
      have found := nothing.faults
        (bindingsOf_findingIf (context.function = .none) .returnOutsideFunction keyword)
      rwa [List.append_nil] at found
  | .return keyword (some e) => by
      refine ((e.records context none none scopes).faults ?_).node ⟨scopes, none, _⟩ rfl
      rw [bindingsOf_append, bindingsOf_findingIf, bindingsOf_findingIf]
      rfl
  | .class name none ds =>
      ((Stmt.recordsOfMethods { context with enclosing := .base }
        (Scope.holding "this" :: scopes.introduce name) ds).faults
        (bindingsOf_declarationFindings scopes name)).node ⟨scopes, none, _⟩ rfl
  | .class name (some e) ds => by
      have binds : bindingsOf (declarationFindings scopes name ++ superclassFindings name e) =
          [] := by
        rw [bindingsOf_append, bindingsOf_declarationFindings, bindingsOf_superclassFindings]
        rfl
      have clause := (e.records { context with enclosing := .derived } none (some name.lexeme)
        (scopes.introduce name)).faults binds
      exact (clause.append (Stmt.recordsOfMethods { context with enclosing := .derived }
        (Scope.holding "this" :: Scope.holding "super" :: scopes.introduce name) ds)).node
        ⟨scopes, none, _⟩ rfl

theorem Stmt.recordsAll (context : Context) (scopes : Scopes) : ∀ ss : List Stmt,
    Records (Stmt.findingsAll context scopes ss) (Stmt.visitsAll scopes ss)
  | [] => .nil
  | s :: ss => by
      rw [Stmt.findingsAll_cons, Stmt.visitsAll]
      exact (Stmt.records context scopes s).append (Stmt.recordsAll context (s.after scopes) ss)

theorem Stmt.recordsOfMethods (context : Context) (scopes : Scopes) : ∀ ds : List FunctionDecl,
    Records (Stmt.findingsOfMethods context scopes ds) (Stmt.visitsOfMethods scopes ds)
  | [] => .nil
  | d :: ds =>
      (FunctionDecl.records (methodContext d.name.lexeme) context scopes d).append
        (Stmt.recordsOfMethods context scopes ds)

theorem FunctionDecl.records (kind : FunctionContext) (context : Context) (scopes : Scopes) :
    ∀ d : FunctionDecl, Records (d.findings kind context scopes) (d.visits scopes)
  | ⟨_, parameters, body⟩ =>
      (Stmt.recordsAll { context with function := kind }
        (Scopes.introduceAll ([] :: scopes) parameters).1 body).faults
        (bindingsOf_introduceAll ([] :: scopes) parameters)

end

def visits (statements : List Stmt) : List Visit := Stmt.visitsAll [] statements

/-- What is visited is a node of the program. -/
theorem node_mem_of_mem_visits {statements : List Stmt} {v : Visit} (hv : v ∈ visits statements) :
    v.node ∈ Stmt.nodesAll statements := by
  rw [← Stmt.map_node_visitsAll [] statements]
  exact List.mem_map_of_mem hv

/-- The analysis of a program finds what there is at its visits. -/
theorem records_analyze (statements : List Stmt) :
    Records (analyze statements) (visits statements) :=
  Stmt.recordsAll .top [] statements

end Lox
