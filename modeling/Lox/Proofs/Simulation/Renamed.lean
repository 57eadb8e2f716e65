import Lox.Proofs.Simulation.Correspondence
import Lox.Proofs.Scope.Rename

/-!
# A program and its renamed copy side by side

A program without errors and its copy with a renamed variable correspond: every environment has the
names of its scope, renamed as that scope, and every name refers to the environment that it refers
to in the copy.  `NewName.correspondence` relates the phrases of the two, and is closed
(`NewName.closed`).
-/

namespace Lox

/-- What the analysis has found in a phrase is known to a machine. -/
structure Learned (known : Std.TreeMap Site Nat) (fs : List Finding) : Prop where
  errors : scopeErrorsOf fs = []
  distances : ∀ b ∈ bindingsOf fs, known[b.site]? = b.distance

theorem learned_append {known : Std.TreeMap Site Nat} {fs gs : List Finding} :
    Learned known (fs ++ gs) ↔ Learned known fs ∧ Learned known gs := by
  constructor
  · rintro ⟨errors, distances⟩
    rw [scopeErrorsOf_append, List.append_eq_nil_iff] at errors
    rw [bindingsOf_append, List.forall_mem_append] at distances
    exact ⟨⟨errors.1, distances.1⟩, ⟨errors.2, distances.2⟩⟩
  · rintro ⟨⟨errors, distances⟩, ⟨errors', distances'⟩⟩
    constructor
    · rw [scopeErrorsOf_append, errors, errors', List.append_nil]
    · rw [bindingsOf_append, List.forall_mem_append]
      exact ⟨distances, distances'⟩

theorem Learned.bound {known : Std.TreeMap Site Nat} {S : Scopes} {site : Site} {name : Token}
    (learned : Learned known (bind S site name)) : known[site]? = S.distance? name.lexeme :=
  learned.distances _ (List.mem_singleton_self _)

namespace NewName

variable (t : NewName) (known : Std.TreeMap Site Nat)

/-- Tokens that are the same but for the name of the variable. -/
def Quotes (t₁ t₂ : Token) : Prop := t₂ = t₁ ∨ t₁.lexeme = t.old ∧ t₂ = { t₁ with lexeme := t.new }

structure CopiesExpr (S : Scopes) (M : Marks) (ρ : List Renaming) (e e' : Expr) : Prop where
  told : t.Told S M
  fits : t.Fits M ρ
  avoids : ∀ node ∈ e.nodes, t.Avoids node
  learned : ∃ context pending, Learned known (e.findings context pending S)
  copy : e' = e.rename t M

/-- A statement at a place, before which there are `n` variables, and its copy. -/
structure CopiesStmt (n : Nat) (S : Scopes) (M : Marks) (ρ : List Renaming) (s s' : Stmt) :
    Prop where
  told : t.Told S M
  fits : t.Fits (s.marks t n M) ρ
  avoids : ∀ node ∈ s.nodes, t.Avoids node
  learned : ∃ context, Learned known (s.findings context S).2
  copy : s' = s.rename t n M

/-- A function at a place, before which there are `n` variables, and its copy. -/
structure CopiesDecl (n : Nat) (S : Scopes) (M : Marks) (ρ : List Renaming) (d d' : FunctionDecl) :
    Prop where
  told : t.Told S M
  fits : t.Fits M ρ
  names : t.AvoidsNames d.parameters
  avoids : ∀ node ∈ d.nodes, t.Avoids node
  learned : ∃ kind context, Learned known (d.findings kind context S)
  copy : d' = d.rename t n M

def correspondence : Correspondence where
  first := known
  second := known
  before := ""
  culprit := t.Quotes
  admits π := π receiverName = receiverName ∧ π superName = superName
  expr l e e' := ∃ S M, t.CopiesExpr known S M l.renamings e e'
  stmt l after s s' := after = ⟨s.after l.scopes, l.renamings⟩ ∧
    ∃ n M, t.CopiesStmt known n l.scopes M l.renamings s s'
  decl l d d' := ∃ n M, t.CopiesDecl known n l.scopes M l.renamings d d'

variable {t known} {S : Scopes} {M : Marks} {ρ : List Renaming} {n : Nat}

theorem quotes_token (name : Token) {marked : Bool} (old : marked = true → name.lexeme = t.old) :
    t.Quotes name (t.token marked name) := by
  cases marked with
  | false => exact Or.inl rfl
  | true => exact Or.inr ⟨old rfl, rfl⟩

theorem word_refl (l : Token) : (t.correspondence known).Word l l := ⟨Or.inl rfl, rfl, rfl⟩

/-- A name is renamed as the scope that it is found in. -/
theorem Told.renaming_of_distance? (told : t.Told S M) (fits : t.Fits M ρ) {name : String} {d : Nat}
    (distance : S.distance? name = some d) :
    ∃ π, ρ[d]? = some π ∧ t.word (M.refers name) name = π name := by
  induction told generalizing ρ d with
  | nil => cases distance
  | @cons scope marks S M tells told ih =>
      cases fits with
      | @cons _ π _ ρ suits fits =>
          rw [Scopes.distance?_cons] at distance
          split at distance
          · rename_i held
            obtain rfl := Option.some.inj distance
            rw [Table.has, ← tells.domain] at held
            obtain ⟨marked, held⟩ := Option.isSome_iff_exists.1 held
            refine ⟨π, rfl, ?_⟩
            rw [Marks.refers, held, suits.renamed name marked held]
            rfl
          · rename_i free
            have missing : scope.get? name = none := by
              simpa [Table.has] using free
            obtain ⟨d', outer, rfl⟩ := Option.map_eq_some_iff.1 distance
            obtain ⟨π', found, renamed⟩ := ih fits outer
            refine ⟨π', found, ?_⟩
            rw [Marks.refers, tells.get?_eq_none.1 missing]
            exact renamed

/-- A name and its copy refer to the same environment. -/
theorem Told.reference (told : t.Told S M) {l : Layout} (fits : t.Fits M l.renamings) {site : Site}
    {name : Token} (learned : Learned known (bind S site name)) :
    (t.correspondence known).Reference l site name site
      (t.token (M.refers name.lexeme) name) where
  culprit := quotes_token name fun refers => (told.eq_old refers).1
  distance := rfl
  global free := by
    rw [show (t.correspondence known).first[site]? = known[site]? from rfl, learned.bound] at free
    rw [told.refers_eq_false_of_distance? free, token_false]
  here d distance := by
    rw [show (t.correspondence known).first[site]? = known[site]? from rfl, learned.bound]
      at distance
    exact told.renaming_of_distance? fits distance

/-- A word of the language refers to the same environment in the copy. -/
theorem Told.reference_of_word (told : t.Told S M) {l : Layout} (fits : t.Fits M l.renamings)
    {site : Site} {keyword : Token} (learned : Learned known (bind S site keyword))
    (word : ¬ Ordinary keyword.lexeme) :
    (t.correspondence known).Reference l site keyword site keyword := by
  have found := told.reference fits learned
  rwa [told.refers_eq_false word, token_false] at found

theorem CopiesExpr.exprMatch {l : Layout} {e e' : Expr}
    (h : t.CopiesExpr known S M l.renamings e e') :
    (t.correspondence known).ExprMatch l e e' := by
  obtain ⟨told, fits, avoids, ⟨context, pending, learned⟩, rfl⟩ := h
  have inside {a : Expr} (sub : ∀ node ∈ a.nodes, t.Avoids node)
      (learned : Learned known (a.findings context pending S)) :
      (t.correspondence known).expr l a (a.rename t M) :=
    ⟨S, M, told, fits, sub, ⟨context, pending, learned⟩, rfl⟩
  have here := avoids _ e.self_mem_nodes
  cases e with
  | literal value => exact .literal value
  | grouping a =>
      rw [Expr.nodes, List.forall_mem_append] at avoids
      exact .grouping (inside avoids.1 learned)
  | unary o a =>
      rw [Expr.nodes, List.forall_mem_append] at avoids
      exact .unary (word_refl o) (inside avoids.1 learned)
  | binary a o b =>
      rw [Expr.nodes, List.forall_mem_append, List.forall_mem_append] at avoids
      rw [Expr.findings, learned_append] at learned
      exact .binary (inside avoids.1.1 learned.1) (word_refl o) (inside avoids.1.2 learned.2)
  | logical a o b =>
      rw [Expr.nodes, List.forall_mem_append, List.forall_mem_append] at avoids
      rw [Expr.findings, learned_append] at learned
      exact .logical (inside avoids.1.1 learned.1) (word_refl o) (inside avoids.1.2 learned.2)
  | «variable» site name =>
      rw [Expr.findings, learned_append] at learned
      exact .variable (told.reference fits learned.2)
  | assign site name a =>
      rw [Expr.nodes, List.forall_mem_append] at avoids
      rw [Expr.findings, learned_append] at learned
      exact .assign (told.reference fits learned.2) (inside avoids.1 learned.1)
  | call a paren as =>
      rw [Expr.nodes, List.forall_mem_append, List.forall_mem_append] at avoids
      rw [Expr.findings, learned_append] at learned
      refine .call (inside avoids.1.1 learned.1) (Or.inl rfl) ?_
      have members := avoids.1.2
      have known := learned.2
      clear here avoids learned
      induction as with
      | nil => exact .nil
      | cons b bs ih =>
          rw [Expr.nodesAll, List.forall_mem_append] at members
          rw [Expr.findingsAll, learned_append] at known
          exact .cons (inside members.1 known.1) (ih members.2 known.2)
  | get a name =>
      rw [Expr.nodes, List.forall_mem_append] at avoids
      exact .get (inside avoids.1 learned) (word_refl name)
  | set a name b =>
      rw [Expr.nodes, List.forall_mem_append, List.forall_mem_append] at avoids
      rw [Expr.findings, learned_append] at learned
      exact .set (inside avoids.1.2 learned.2) (word_refl name) (inside avoids.1.1 learned.1)
  | this site keyword =>
      have word := (here.sound.spelled keyword (List.mem_singleton_self _)).keyword .this
        here.sound.formed
      rw [Expr.findings] at learned
      split at learned
      · cases learned.errors
      · refine .this (told.reference_of_word fits learned ?_)
        intro ordinary
        exact ordinary.receiver word
  | super site keyword method => exact .super rfl (Or.inl rfl) (word_refl method)

/-- Where a name is declared, it is renamed as the environment. -/
theorem Told.here (told : t.Told S M) {name : String} {marked : Bool} {l : Layout}
    (fits : t.Fits (M.declare name marked) l.renamings) (whole : M = [] → marked = false) :
    t.word marked name = l.here name := by
  rw [Layout.here]
  generalize l.renamings = ρ at fits
  cases told with
  | nil =>
      cases fits
      rw [whole rfl]
      rfl
  | cons =>
      cases fits with
      | cons suits _ => exact (suits.renamed name marked (Table.get?_set_self _ _ _)).symm

theorem chooses_nil {name : Token} (whole : M = []) : t.chooses n M name = false := by
  rw [whole, chooses]
  exact Bool.and_false _

theorem statements_copied (context : Context) {ss : List Stmt} (told : t.Told S M)
    (fits : t.Fits (Stmt.marksAll t n M ss) ρ) (avoids : ∀ node ∈ Stmt.nodesAll ss, t.Avoids node)
    (learned : Learned known (Stmt.findingsAll context S ss)) :
    (t.correspondence known).Statements ⟨S, ρ⟩ ss (Stmt.renameAll t n M ss) := by
  induction ss generalizing S M n with
  | nil => exact .nil _
  | cons s ss ih =>
      rw [Stmt.nodesAll, List.forall_mem_append] at avoids
      rw [Stmt.findingsAll_cons, learned_append] at learned
      have after := told.after (n := n) avoids.1
      have here : t.Fits (s.marks t n M) ρ :=
        .of_marksAll_stmt after context avoids.2 learned.2.errors fits
      exact .cons ⟨rfl, n, M, told, here, avoids.1, ⟨context, learned.1⟩, rfl⟩
        (ih after fits avoids.2 learned.2)

/-- Parameters are renamed as the environment of the call. -/
theorem lexemes_parameters {names : List Token} (told : t.Told S M) {π : Renaming}
    (nonempty : M ≠ []) (avoids : t.AvoidsNames names)
    (errors : scopeErrorsOf (S.introduceAll names).2 = [])
    (fits : t.Fits (t.marksAll n M names) (π :: ρ)) :
    (t.parameters n M names).map Token.lexeme = names.map fun p => π p.lexeme := by
  induction names generalizing S M n with
  | nil => rfl
  | cons name names ih =>
      obtain ⟨⟨ordinary, fresh⟩, rest⟩ := avoids.of_cons
      rw [Scopes.introduceAll, scopeErrorsOf_append, List.append_eq_nil_iff] at errors
      have next := told.introduce fresh (eq_old_of_chooses (n := n) (M := M) ordinary)
      have here : t.Fits (t.marks n M name) (π :: ρ) := .of_marksAll next rest errors.2 fits
      have renamed := told.here (l := ⟨S, π :: ρ⟩) here chooses_nil
      have later : t.marks n M name ≠ [] := by
        cases M with
        | nil => exact absurd rfl nonempty
        | cons => exact List.cons_ne_nil _ _
      have others := ih next later rest errors.2 fits
      rw [parameters, List.map_cons, List.map_cons]
      exact congrArg₂ List.cons renamed others

theorem Fits.admits {marks : Table Bool} {π : Renaming} (fits : t.Fits (marks :: M) (π :: ρ)) :
    (t.correspondence known).admits π := by
  cases fits with
  | cons suits _ => exact ⟨suits.receiver, suits.super⟩

theorem CopiesDecl.declMatch (ordinary : Ordinary t.new) {l : Layout} {d d' : FunctionDecl}
    (h : t.CopiesDecl known n l.scopes M l.renamings d d') :
    (t.correspondence known).DeclMatch l d d' := by
  obtain ⟨told, fits, names, avoids, ⟨kind, context, learned⟩, rfl⟩ := h
  obtain ⟨name, parameters, body⟩ := d
  rw [FunctionDecl.findings_eq, learned_append] at learned
  have inside : t.Told ([] :: l.scopes) ([] :: M) := .cons tells_nil told
  have within := inside.introduceAll (n := n) names
  obtain ⟨inner, marks⟩ := exists_marksAll_cons (t := t) n [] M parameters
  obtain ⟨π, last⟩ := Fits.exists_cons (n := n + parameters.length) fits ordinary
    (marks ▸ within) avoids
  rw [← marks] at last
  have first := Fits.of_marksAll_stmt within _ avoids learned.2.errors last
  refine ⟨rfl, π, ?_, ?_, ?_⟩
  · rw [marks] at first
    exact first.admits
  · exact lexemes_parameters inside (List.cons_ne_nil _ _) names learned.1.errors first
  · exact statements_copied _ within last avoids learned.2

theorem methods_copied {context : Context} {l : Layout} {ds : List FunctionDecl}
    (told : t.Told l.scopes M) (fits : t.Fits M l.renamings)
    (names : ∀ d ∈ ds, t.AvoidsNames d.parameters)
    (avoids : ∀ node ∈ Stmt.nodesOfMethods ds, t.Avoids node)
    (learned : Learned known (Stmt.findingsOfMethods context l.scopes ds)) :
    List.Forall₂ ((t.correspondence known).decl l) ds (Stmt.renameMethods t n M ds) := by
  induction ds generalizing n with
  | nil => exact .nil
  | cons d ds ih =>
      obtain ⟨name, names⟩ := List.forall_mem_cons.1 names
      rw [Stmt.nodesOfMethods, List.forall_mem_append] at avoids
      rw [Stmt.findingsOfMethods, learned_append] at learned
      exact .cons ⟨n, M, told, fits, name, avoids.1, ⟨_, context, learned.1⟩, rfl⟩
        (ih names avoids.2 learned.2)

theorem CopiesStmt.stmtMatch (ordinary : Ordinary t.new) {l : Layout} {s s' : Stmt}
    (h : t.CopiesStmt known n l.scopes M l.renamings s s') :
    (t.correspondence known).StmtMatch l ⟨s.after l.scopes, l.renamings⟩ s s' := by
  obtain ⟨told, fits, avoids, ⟨context, learned⟩, rfl⟩ := h
  have here := avoids _ s.self_mem_nodes
  have formed : ∀ node ∈ s.nodes, node.WellFormed := fun node h => (avoids node h).sound.formed
  have value {e : Expr} (sub : ∀ node ∈ e.nodes, t.Avoids node) (fits : t.Fits M l.renamings)
      (learned : Learned known (e.findings context none l.scopes)) :
      (t.correspondence known).expr l e (e.rename t M) :=
    ⟨l.scopes, M, told, fits, sub, ⟨context, none, learned⟩, rfl⟩
  have inside {n : Nat} {s : Stmt} (plain : s.isPlain) (sub : ∀ node ∈ s.nodes, t.Avoids node)
      (fits : t.Fits M l.renamings) (learned : Learned known (s.findings context l.scopes).2) :
      (t.correspondence known).stmt l ⟨s.after l.scopes, l.renamings⟩ s (s.rename t n M) :=
    ⟨rfl, n, M, told, fits.of_isPlain plain, sub, ⟨context, learned⟩, rfl⟩
  cases s with
  | expression e =>
      rw [Stmt.nodes, List.forall_mem_append] at avoids
      exact .expression (value avoids.1 fits learned)
  | print e =>
      rw [Stmt.nodes, List.forall_mem_append] at avoids
      exact .print (value avoids.1 fits learned)
  | var name initializer =>
      obtain ⟨ordinary, fresh⟩ := here.of_var
      have declared := told.here fits chooses_nil
      cases initializer with
      | none => exact .var declared
      | some e =>
          rw [Stmt.nodes, List.forall_mem_append] at avoids
          rw [Stmt.findings, learned_append] at learned
          refine .initialized declared ?_
          exact ⟨_, _, told.declare fresh (eq_old_of_chooses ordinary), fits, avoids.1,
            ⟨context, _, learned.2⟩, rfl⟩
  | block body =>
      rw [Stmt.nodes, List.forall_mem_append] at avoids
      have within : t.Told ([] :: l.scopes) ([] :: M) := .cons tells_nil told
      obtain ⟨π, last⟩ := Fits.exists_cons (n := n) fits ordinary within avoids.1
      have first := Fits.of_marksAll_stmt within context avoids.1 learned.errors last
      exact .block first.admits (statements_copied context within last avoids.1 learned)
  | branch e s alternative =>
      rw [Stmt.after_of_isPlain l.scopes formed rfl]
      cases alternative with
      | none =>
          have plain : s.isPlain := here.sound.formed
          rw [Stmt.nodes, List.forall_mem_append, List.forall_mem_append] at avoids
          rw [Stmt.findings, learned_append] at learned
          exact .branch (value avoids.1.1 fits learned.1) (inside plain avoids.1.2 fits learned.2)
      | some s' =>
          obtain ⟨plain, plain'⟩ : s.isPlain ∧ s'.isPlain := here.sound.formed
          rw [Stmt.nodes, List.forall_mem_append, List.forall_mem_append,
            List.forall_mem_append] at avoids formed
          simp only [Stmt.findings, Stmt.findings_fst, learned_append,
            Stmt.after_of_isPlain l.scopes formed.1.1.2 plain] at learned
          exact .alternative (value avoids.1.1.1 fits learned.1.1)
            (inside plain avoids.1.1.2 fits learned.1.2)
            (inside plain' avoids.1.2 fits learned.2)
  | «while» e s =>
      rw [Stmt.after_of_isPlain l.scopes formed rfl]
      have plain : s.isPlain := here.sound.formed
      rw [Stmt.nodes, List.forall_mem_append, List.forall_mem_append] at avoids
      rw [Stmt.findings, learned_append] at learned
      exact .while (value avoids.1.1 fits learned.1) (inside plain avoids.1.2 fits learned.2)
  | function d =>
      obtain ⟨⟨_, fresh⟩, names⟩ := here.of_function
      rw [Stmt.nodes, List.forall_mem_append] at avoids
      rw [Stmt.findings, learned_append] at learned
      refine .function (told.here fits fun _ => rfl).symm ?_
      exact ⟨n, _, told.introduce_other fresh, fits, names, avoids.1,
        ⟨.function, context, learned.2⟩, rfl⟩
  | «return» keyword e =>
      cases e with
      | none => exact .return keyword keyword
      | some e =>
          rw [Stmt.nodes, List.forall_mem_append] at avoids
          rw [Stmt.findings, learned_append] at learned
          exact .returnValue keyword keyword (value avoids.1 fits learned.2)
  | «class» name clause ds =>
      obtain ⟨⟨_, fresh⟩, names⟩ := here.of_class
      have declared := (told.here fits fun _ => rfl).symm
      have after := told.introduce_other fresh
      cases clause with
      | none =>
          rw [Stmt.nodes, List.forall_mem_append] at avoids
          rw [Stmt.findings, learned_append] at learned
          refine .class rfl declared ?_
          exact methods_copied (after.holding ordinary.receiver.symm) (fits.holding _) names
            avoids.1 learned.2
      | some e =>
          rw [Stmt.nodes, List.forall_mem_append, List.forall_mem_append] at avoids
          rw [Stmt.findings, learned_append, learned_append] at learned
          refine .subclass rfl declared (Or.inl rfl) ?_ ?_
          · exact ⟨_, _, after, fits, avoids.1.1, ⟨_, none, learned.1.2⟩, rfl⟩
          · exact methods_copied
              ((after.holding ordinary.super.symm).holding ordinary.receiver.symm)
              ((fits.holding _).holding _) names avoids.1.2 learned.2

/-- A program and its copy correspond layer by layer. -/
theorem closed (ordinary : Ordinary t.new) : (t.correspondence known).Closed where
  expr := by
    rintro l e e' ⟨S, M, h⟩
    exact h.exprMatch
  stmt := by
    rintro l after s s' ⟨rfl, n, M, h⟩
    exact h.stmtMatch ordinary
  decl := by
    rintro l d d' ⟨n, M, h⟩
    exact h.declMatch ordinary
  one := ⟨rfl, rfl⟩
  receiver h := h.1
  super h := h.2

end NewName

end Lox
