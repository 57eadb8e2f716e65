import Lox.Proofs.Simulation.Evaluation
import Lox.Proofs.Scope.Relabel

/-!
# Relabeled programs side by side

A program and its relabeled copy correspond: nothing is renamed, and as long as the second machine
knows the same distances at the relabeled sites, both are executed alike.  `relabeled` is this
correspondence.  What is known of the nodes of the first program is known of their visits by the
static analysis, so that a watcher can compare the environments with the scopes of a visit.

Different parts of a program may be relabeled differently.  A relabeling that changes nothing is one
as well, which makes the correspondence useful for a single program.
-/

namespace Lox

/-- The layout with the given scopes in which nothing is renamed. -/
def Layout.plain (scopes : Scopes) : Layout := ⟨scopes, List.replicate scopes.length 1⟩

@[simp] theorem Scopes.length_declare (S : Scopes) (name : String) :
    (S.declare name).length = S.length := by
  cases S <;> rfl

@[simp] theorem Scopes.length_introduce (S : Scopes) (name : Token) :
    (S.introduce name).length = S.length := by
  cases S <;> rfl

@[simp] theorem Scopes.length_introduceAll (S : Scopes) (names : List Token) :
    (S.introduceAll names).1.length = S.length := by
  induction names generalizing S with
  | nil => rfl
  | cons name names ih => exact (ih _).trans (S.length_introduce name)

namespace Layout

theorem plain_declare (S : Scopes) (name : String) :
    plain (S.declare name) = (plain S).declare name := by
  simp [plain, declare]

theorem plain_introduce (S : Scopes) (name : Token) :
    plain (S.introduce name) = (plain S).introduce name := by
  simp [plain, introduce]

theorem plain_cons (scope : Scope) (S : Scopes) :
    plain (scope :: S) = (plain S).push scope 1 := rfl

theorem plain_inside (S : Scopes) (names : List Token) :
    plain (Scopes.introduceAll ([] :: S) names).1 = (plain S).inside names 1 := by
  simp [plain, inside, List.replicate_succ]

@[simp] theorem here_plain (S : Scopes) : (plain S).here = 1 := by
  cases S <;> rfl

end Layout

/-- How the scopes of a visit show during execution.  While a superclass clause is evaluated, the
name of the class is not there yet. -/
inductive Sees : Option String → Scopes → Scopes → Prop
  | all (S : Scopes) : Sees none S S
  | clause (S : Scopes) (name : Token) :
      Sees (some name.lexeme) (S.introduce name) (S.declare name.lexeme)

theorem Sees.length {pending : Option String} {S S' : Scopes} (h : Sees pending S S') :
    S'.length = S.length := by
  cases h with
  | all => rfl
  | clause => simp

/-- The distance of a name is less than the number of scopes. -/
theorem Scopes.distance?_lt {S : Scopes} {name : String} {d : Nat}
    (h : S.distance? name = some d) : d < S.length := by
  induction S generalizing d with
  | nil => cases h
  | cons scope S ih =>
      rw [Scopes.distance?_cons] at h
      split at h
      · cases h
        exact Nat.zero_lt_succ _
      · obtain ⟨d', hd', rfl⟩ := Option.map_eq_some_iff.1 h
        exact Nat.succ_lt_succ (ih hd')

/-- What must be known of a visit when a program is compared with its relabeled copy. -/
structure Visit.Recorded (first second : Std.TreeMap Site Nat) (culprit : Token → Token → Prop)
    (r : Relabeling) (v : Visit) : Prop where
  distance : ∀ site name, v.node.reference? = some (site, name) →
    first[site]? = v.scopes.distance? name.lexeme
  copied : ∀ site name, v.node.reference? = some (site, name) →
    second[r.site site]? = first[site]?
  culprit : ∀ t ∈ v.node.tokens, culprit t (r.token t)
  formed : v.node.WellFormed

structure Comparison where
  first : Std.TreeMap Site Nat
  second : Std.TreeMap Site Nat
  before : String
  culprit : Token → Token → Prop
  relabels : Relabeling → Prop
  faithful : ∀ r, relabels r → r.Faithful
  /-- What is known of the visits of the first program. -/
  visited : Relabeling → Visit → Prop
  recorded : ∀ r v, visited r v → v.Recorded first second culprit r

namespace Comparison

def correspondence (c : Comparison) : Correspondence where
  first := c.first
  second := c.second
  before := c.before
  culprit := c.culprit
  admits π := π = 1
  expr l e₁ e₂ := ∃ r : Relabeling, c.relabels r ∧ e₂ = e₁.relabel r ∧
    ∃ pending S S', Sees pending S S' ∧ l = .plain S' ∧ ∀ v ∈ e₁.visits pending S, c.visited r v
  stmt l after s₁ s₂ := ∃ r : Relabeling, c.relabels r ∧ s₂ = s₁.relabel r ∧
    ∃ S, l = .plain S ∧ after = .plain (s₁.after S) ∧ ∀ v ∈ s₁.visits S, c.visited r v
  decl l d₁ d₂ := ∃ r : Relabeling, c.relabels r ∧ d₂ = d₁.relabel r ∧
    ∃ S, l = .plain S ∧ ∀ v ∈ d₁.visits S, c.visited r v

variable {c : Comparison} {r : Relabeling} {S : Scopes}

theorem lexeme_of_relabels (h : c.relabels r) (t : Token) : (r.token t).lexeme = t.lexeme :=
  (c.faithful r h).lexeme t

theorem expr_of_visits {e : Expr} (h : c.relabels r)
    (visited : ∀ v ∈ e.visits none S, c.visited r v) :
    c.correspondence.expr (.plain S) e (e.relabel r) :=
  ⟨r, h, rfl, none, S, S, .all S, rfl, visited⟩

theorem statements_of_visits (h : c.relabels r) {ss : List Stmt}
    (visited : ∀ v ∈ Stmt.visitsAll S ss, c.visited r v) :
    c.correspondence.Statements (.plain S) ss (Stmt.relabelAll r ss) := by
  induction ss generalizing S with
  | nil => exact .nil _
  | cons s ss ih =>
      simp only [Stmt.visitsAll, List.forall_mem_append] at visited
      exact .cons ⟨r, h, rfl, S, rfl, rfl, visited.1⟩ (ih visited.2)

theorem methods_of_visits (h : c.relabels r) {ds : List FunctionDecl}
    (visited : ∀ v ∈ Stmt.visitsOfMethods S ds, c.visited r v) :
    List.Forall₂ (c.correspondence.decl (.plain S)) ds (Stmt.relabelMethods r ds) := by
  induction ds with
  | nil => exact .nil
  | cons d ds ih =>
      simp only [Stmt.visitsOfMethods, List.forall_mem_append] at visited
      exact .cons ⟨r, h, rfl, S, rfl, visited.1⟩ (ih visited.2)

/-- Names that are looked up at the distances that both machines know. -/
theorem reference_of_recorded (h : c.relabels r) {v : Visit}
    (recorded : v.Recorded c.first c.second c.culprit r) {site : Site} {name : Token}
    (refers : v.node.reference? = some (site, name)) (mem : name ∈ v.node.tokens) {S' : Scopes}
    (length : S'.length = v.scopes.length) :
    c.correspondence.Reference (.plain S') site name (r.site site) (r.token name) where
  culprit := recorded.culprit name mem
  distance := recorded.copied site name refers
  global _ := lexeme_of_relabels h name
  here d hd := by
    have inside : d < S'.length := by
      rw [length]
      exact Scopes.distance?_lt ((recorded.distance site name refers).symm.trans hd)
    refine ⟨1, ?_, lexeme_of_relabels h name⟩
    rw [Layout.plain, List.getElem?_replicate, if_pos inside]

theorem word_of_recorded (h : c.relabels r) {v : Visit}
    (recorded : v.Recorded c.first c.second c.culprit r) {t : Token} (mem : t ∈ v.node.tokens) :
    c.correspondence.Word t (r.token t) :=
  ⟨recorded.culprit t mem, (c.faithful r h).kind t, lexeme_of_relabels h t⟩

theorem exprMatch (h : c.relabels r) {pending : Option String} {S S' : Scopes}
    (sees : Sees pending S S') {e : Expr} (visited : ∀ v ∈ e.visits pending S, c.visited r v) :
    c.correspondence.ExprMatch (.plain S') e (e.relabel r) := by
  have inside {e' : Expr} (sub : ∀ n ∈ e'.nodes, n ∈ e.nodes) :
      c.correspondence.expr (.plain S') e' (e'.relabel r) := by
    refine ⟨r, h, rfl, pending, S, S', sees, rfl, fun v hv => visited v ?_⟩
    obtain ⟨n, hn, rfl⟩ := List.mem_map.1 hv
    exact List.mem_map_of_mem (sub n hn)
  have self (hself : .expr e ∈ e.nodes) :
      Visit.Recorded c.first c.second c.culprit r ⟨S, pending, .expr e⟩ :=
    c.recorded r _ (visited _ (List.mem_map_of_mem hself))
  have length := sees.length
  cases e with
  | literal value => exact .literal value
  | grouping a => exact .grouping (inside fun n hn => by simp [Expr.nodes, hn])
  | unary o a =>
      have here := self (by simp [Expr.nodes])
      exact .unary (word_of_recorded h here (by simp [Node.tokens]))
        (inside fun n hn => by simp [Expr.nodes, hn])
  | binary a o b =>
      have here := self (by simp [Expr.nodes])
      exact .binary (inside fun n hn => by simp [Expr.nodes, hn])
        (word_of_recorded h here (by simp [Node.tokens]))
        (inside fun n hn => by simp [Expr.nodes, hn])
  | logical a o b =>
      have here := self (by simp [Expr.nodes])
      exact .logical (inside fun n hn => by simp [Expr.nodes, hn])
        (word_of_recorded h here (by simp [Node.tokens]))
        (inside fun n hn => by simp [Expr.nodes, hn])
  | «variable» site name =>
      have here := self (by simp [Expr.nodes])
      exact .variable (reference_of_recorded h here rfl (by simp [Node.tokens]) length)
  | assign site name a =>
      have here := self (by simp [Expr.nodes])
      exact .assign (reference_of_recorded h here rfl (by simp [Node.tokens]) length)
        (inside fun n hn => by simp [Expr.nodes, hn])
  | call a paren as =>
      have here := self (by simp [Expr.nodes])
      refine .call (inside fun n hn => by simp [Expr.nodes, hn])
        (here.culprit paren (by simp [Node.tokens])) ?_
      have each : ∀ a ∈ as, c.correspondence.expr (.plain S') a (a.relabel r) := by
        intro a ha
        refine inside fun n hn => ?_
        rw [Expr.nodes, Expr.nodesAll_eq_flatMap]
        simp only [List.mem_append, List.mem_flatMap]
        exact Or.inl (Or.inr ⟨a, ha, hn⟩)
      rw [Expr.relabelAll_eq_map, List.forall₂_map_right_iff]
      exact List.forall₂_same.2 each
  | get a name =>
      have here := self (by simp [Expr.nodes])
      exact .get (inside fun n hn => by simp [Expr.nodes, hn])
        (word_of_recorded h here (by simp [Node.tokens]))
  | set a name b =>
      have here := self (by simp [Expr.nodes])
      exact .set (inside fun n hn => by simp [Expr.nodes, hn])
        (word_of_recorded h here (by simp [Node.tokens]))
        (inside fun n hn => by simp [Expr.nodes, hn])
  | this site keyword =>
      have here := self (by simp [Expr.nodes])
      exact .this (reference_of_recorded h here rfl (by simp [Node.tokens]) length)
  | super site keyword method =>
      have here := self (by simp [Expr.nodes])
      exact .super (here.copied site keyword rfl) (here.culprit keyword (by simp [Node.tokens]))
        (word_of_recorded h here (by simp [Node.tokens]))

theorem formed_of_visits {s : Stmt} (visited : ∀ v ∈ s.visits S, c.visited r v) :
    ∀ n ∈ s.nodes, n.WellFormed := by
  intro n hn
  rw [← Stmt.map_node_visits S s] at hn
  obtain ⟨v, hv, rfl⟩ := List.mem_map.1 hn
  exact (c.recorded r v (visited v hv)).formed

theorem declMatch (h : c.relabels r) {d : FunctionDecl}
    (visited : ∀ v ∈ d.visits S, c.visited r v) :
    c.correspondence.DeclMatch (.plain S) d (d.relabel r) := by
  obtain ⟨name, parameters, body⟩ := d
  refine ⟨lexeme_of_relabels h name, 1, rfl, ?_, ?_⟩
  · simp [FunctionDecl.relabel, lexeme_of_relabels h]
  · rw [← Layout.plain_inside]
    exact statements_of_visits h visited

theorem stmtMatch (h : c.relabels r) {s : Stmt} (visited : ∀ v ∈ s.visits S, c.visited r v) :
    c.correspondence.StmtMatch (.plain S) (.plain (s.after S)) s (s.relabel r) := by
  have self (hself : ⟨S, none, .stmt s⟩ ∈ s.visits S) :
      Visit.Recorded c.first c.second c.culprit r ⟨S, none, .stmt s⟩ :=
    c.recorded r _ (visited _ hself)
  have one : c.correspondence.admits 1 := rfl
  cases s with
  | expression e =>
      simp only [Stmt.visits, List.forall_mem_append] at visited
      exact .expression (expr_of_visits h visited.1)
  | print e =>
      simp only [Stmt.visits, List.forall_mem_append] at visited
      exact .print (expr_of_visits h visited.1)
  | var name initializer =>
      have same : (r.token name).lexeme = (Layout.plain S).here name.lexeme := by
        simp [lexeme_of_relabels h]
      rw [Stmt.after, Layout.plain_introduce]
      cases initializer with
      | none => exact .var same
      | some e =>
          simp only [Stmt.visits, List.forall_mem_append] at visited
          refine .initialized same ?_
          rw [← Layout.plain_declare]
          exact expr_of_visits h visited.1
  | block body =>
      simp only [Stmt.visits, List.forall_mem_append] at visited
      refine .block one ?_
      rw [← Layout.plain_cons]
      exact statements_of_visits h visited.1
  | branch e s alternative =>
      have formed := formed_of_visits visited
      rw [Stmt.after_of_isPlain S formed rfl]
      cases alternative with
      | none =>
          simp only [Stmt.visits, List.forall_mem_append] at visited
          exact .branch (expr_of_visits h visited.1.1) ⟨r, h, rfl, S, rfl, rfl, visited.1.2⟩
      | some s' =>
          have plain : s.isPlain ∧ s'.isPlain := formed _ (Stmt.self_mem_nodes _)
          simp only [Stmt.visits, List.forall_mem_append] at visited
          obtain ⟨⟨⟨condition, first⟩, second⟩, -⟩ := visited
          rw [Stmt.after_of_isPlain S (formed_of_visits first) plain.1] at second
          exact .alternative (expr_of_visits h condition) ⟨r, h, rfl, S, rfl, rfl, first⟩
            ⟨r, h, rfl, S, rfl, rfl, second⟩
  | «while» e s =>
      rw [Stmt.after_of_isPlain S (formed_of_visits visited) rfl]
      simp only [Stmt.visits, List.forall_mem_append] at visited
      exact .while (expr_of_visits h visited.1.1) ⟨r, h, rfl, S, rfl, rfl, visited.1.2⟩
  | function d =>
      simp only [Stmt.visits, List.forall_mem_append] at visited
      rw [Stmt.after, Layout.plain_introduce]
      refine .function (by simp) ?_
      rw [← Layout.plain_introduce]
      exact ⟨r, h, rfl, _, rfl, visited.1⟩
  | «return» keyword value =>
      cases value with
      | none => exact .return keyword (r.token keyword)
      | some e =>
          simp only [Stmt.visits, List.forall_mem_append] at visited
          exact .returnValue keyword (r.token keyword) (expr_of_visits h visited.1)
  | «class» name superclass ds =>
      rw [Stmt.after, Layout.plain_introduce]
      cases superclass with
      | none =>
          simp only [Stmt.visits, List.forall_mem_append] at visited
          refine .class (lexeme_of_relabels h name) (by simp) ?_
          rw [Layout.ofMethods, ← Layout.plain_introduce, ← Layout.plain_cons]
          exact methods_of_visits h visited.1
      | some e =>
          have here := self (by simp [Stmt.visits])
          simp only [Stmt.visits, List.forall_mem_append] at visited
          refine .subclass (lexeme_of_relabels h name) (by simp)
            (here.culprit name (by simp [Node.tokens])) ?_ ?_
          · rw [← Layout.plain_declare]
            exact ⟨r, h, rfl, some name.lexeme, _, _, .clause S name, rfl, visited.1.1⟩
          · rw [Layout.ofInherited, ← Layout.plain_introduce, ← Layout.plain_cons,
              ← Layout.plain_cons]
            exact methods_of_visits h visited.1.2

/-- A comparison relates phrases layer by layer. -/
theorem closed (c : Comparison) : c.correspondence.Closed where
  expr := by
    rintro l e₁ e₂ ⟨r, h, rfl, pending, S, S', sees, rfl, visited⟩
    exact exprMatch h sees visited
  stmt := by
    rintro l after s₁ s₂ ⟨r, h, rfl, S, rfl, rfl, visited⟩
    exact stmtMatch h visited
  decl := by
    rintro l d₁ d₂ ⟨r, h, rfl, S, rfl, visited⟩
    exact declMatch h visited
  one := rfl
  receiver := by
    rintro π rfl
    rfl
  super := by
    rintro π rfl
    rfl

end Comparison

end Lox
