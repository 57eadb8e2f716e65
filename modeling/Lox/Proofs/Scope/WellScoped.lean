import Lox.Proofs.Scope.Lexical
import Lox.Proofs.Scope.Settled

/-!
# Well-scoped programs

The rules on names and on where words may stand, as rules on what occurs in a program: what
`Violates` one of them can be told from the node and from the constructs around it.  A program is
*well-scoped* if nothing in it does.

The static analysis applies these rules with what it has on its way, the scopes and the context.  It
finds no error exactly in the well-scoped programs (`accepts_well_scoped`), and what it finds in
others are violations.  It can miss one only where it has found another: in the initializer of a
name that is declared a second time, the first declaration is there to be read.
-/

namespace Lox

/-- The names that are declared in the body of a function, its parameters first. -/
def FunctionDecl.declared (d : FunctionDecl) : List Token :=
  d.parameters ++ Stmt.introducedAll d.body

/-- The names that are declared in the scopes that a statement has itself, scope by scope. -/
def Stmt.scopes : Stmt → List (List Token)
  | .block body => [Stmt.introducedAll body]
  | .function d => [d.declared]
  | .class _ _ methods => methods.map FunctionDecl.declared
  | _ => []

def Repeats (names : List Token) (name : Token) : Prop :=
  ∃ before after, names = before ++ name :: after ∧ name.lexeme ∈ before.map Token.lexeme

namespace Occurrence

/-- The node breaks a rule at its place, with this error. -/
inductive Violates : Occurrence → ScopeError → Prop
  /-- A block or a function declares a name twice. -/
  | declared {around : List Enclosure} {s : Stmt} {names : List Token} {name : Token}
      (scope : names ∈ s.scopes) (again : Repeats names name) :
      Violates ⟨around, .stmt s⟩ ⟨.alreadyDeclared, name⟩
  /-- The initializer of a variable reads the variable. -/
  | initialized {around : List Enclosure} {name : Token} {value : Expr} {site : Site}
      {read : Token} (inside : .expr (.variable site read) ∈ value.nodes)
      (same : read.lexeme = name.lexeme) :
      Violates ⟨around, .stmt (.var name (some value))⟩ ⟨.readInInitializer, read⟩
  /-- There is a `return` in no function. -/
  | returned {around : List Enclosure} {keyword : Token} {value : Option Expr}
      (outside : enclosingFunction? around = none) :
      Violates ⟨around, .stmt (.return keyword value)⟩ ⟨.returnOutsideFunction, keyword⟩
  /-- A `return` with a value belongs to an initializer. -/
  | yielded {around : List Enclosure} {keyword : Token} {value : Expr} {d : FunctionDecl}
      (inside : enclosingFunction? around = some (.method, d))
      (initializer : d.name.lexeme = initializerName) :
      Violates ⟨around, .stmt (.return keyword (some value))⟩ ⟨.valueFromInitializer, keyword⟩
  /-- There is a `this` in no class. -/
  | this {around : List Enclosure} {site : Site} {keyword : Token}
      (outside : enclosingClass? around = none) :
      Violates ⟨around, .expr (.this site keyword)⟩ ⟨.thisOutsideClass, keyword⟩
  /-- There is a `super` in no class. -/
  | super {around : List Enclosure} {site : Site} {keyword method : Token}
      (outside : enclosingClass? around = none) :
      Violates ⟨around, .expr (.super site keyword method)⟩ ⟨.superOutsideClass, keyword⟩
  /-- A `super` belongs to a class without a superclass. -/
  | base {around : List Enclosure} {site : Site} {keyword method : Token}
      (inside : enclosingClass? around = some none) :
      Violates ⟨around, .expr (.super site keyword method)⟩ ⟨.superWithoutSuperclass, keyword⟩
  /-- A class names itself as its superclass. -/
  | inherits {around : List Enclosure} {name : Token} {site : Site} {superclass : Token}
      {methods : List FunctionDecl} (same : superclass.lexeme = name.lexeme) :
      Violates ⟨around, .stmt (.class name (some (.variable site superclass)) methods)⟩
        ⟨.inheritsFromItself, superclass⟩

end Occurrence

def WellScoped (statements : List Stmt) : Prop :=
  ∀ o ∈ occurrences statements, ∀ e, ¬ o.Violates e

/-! ### Names that are declared again -/

/-- The names that have been there before, in a list that continues another one. -/
def repeatsAfter (known : List Token) : List Token → List Token
  | [] => []
  | name :: names =>
    (if name.lexeme ∈ known.map Token.lexeme then [name] else []) ++
      repeatsAfter (known ++ [name]) names

theorem repeatsAfter_append (known names names' : List Token) :
    repeatsAfter known (names ++ names') =
      repeatsAfter known names ++ repeatsAfter (known ++ names) names' := by
  induction names generalizing known with
  | nil => rw [List.append_nil]; rfl
  | cons name names ih =>
      rw [List.cons_append, repeatsAfter, ih, repeatsAfter, List.append_assoc, List.append_assoc,
        List.singleton_append]

theorem mem_repeatsAfter {known names : List Token} {name : Token} :
    name ∈ repeatsAfter known names ↔
      ∃ before after, names = before ++ name :: after ∧
        name.lexeme ∈ (known ++ before).map Token.lexeme := by
  induction names generalizing known with
  | nil => simp [repeatsAfter]
  | cons first names ih =>
      rw [repeatsAfter, List.mem_append, ih]
      constructor
      · rintro (here | ⟨before, after, rfl, again⟩)
        · split at here
          · rename_i again
            obtain rfl := List.mem_singleton.1 here
            exact ⟨[], names, rfl, by rwa [List.append_nil]⟩
          · cases here
        · exact ⟨first :: before, after, rfl, by rwa [List.append_cons]⟩
      · rintro ⟨_ | ⟨first', before⟩, after, split, again⟩
        · obtain ⟨rfl, rfl⟩ := List.cons.inj split
          rw [List.append_nil] at again
          exact .inl (by simp [again])
        · obtain ⟨rfl, rfl⟩ := List.cons.inj split
          exact .inr ⟨before, after, rfl, by rwa [List.append_cons] at again⟩

theorem mem_repeatsAfter_nil {names : List Token} {name : Token} :
    name ∈ repeatsAfter [] names ↔ Repeats names name := mem_repeatsAfter

/-! ### Contexts -/

section Context

variable {around : List Enclosure}

theorem contextAt_function_eq_none :
    (contextAt around).function = .none ↔ enclosingFunction? around = none := by
  simp only [contextAt]
  cases enclosingFunction? around with
  | none => simp
  | some p =>
      obtain ⟨form, d⟩ := p
      cases form with
      | function => simp [functionContext]
      | method =>
          simp only [functionContext, methodContext]
          split <;> simp

theorem contextAt_function_eq_initializer :
    (contextAt around).function = .initializer ↔
      ∃ d, enclosingFunction? around = some (.method, d) ∧ d.name.lexeme = initializerName := by
  simp only [contextAt]
  cases enclosingFunction? around with
  | none => simp
  | some p =>
      obtain ⟨form, d⟩ := p
      cases form <;> simp [functionContext, methodContext]

theorem contextAt_enclosing_eq_none :
    (contextAt around).enclosing = .none ↔ enclosingClass? around = none := by
  simp only [contextAt]
  rcases enclosingClass? around with _ | _ | _ <;> simp

theorem contextAt_enclosing_eq_base :
    (contextAt around).enclosing = .base ↔ enclosingClass? around = some none := by
  simp only [contextAt]
  rcases enclosingClass? around with _ | _ | _ <;> simp

end Context

/-! ### Errors in expressions -/

theorem mem_scopeErrorsOf_findingIf {faulty : Bool} {fault : ScopeFault} {culprit : Token}
    {e : ScopeError} :
    e ∈ scopeErrorsOf (findingIf faulty fault culprit) ↔ faulty ∧ e = ⟨fault, culprit⟩ := by
  cases faulty <;> simp [findingIf, scopeErrorsOf]

/-- Something is wrong at a place where variables with certain names cannot be read yet. -/
def Occurrence.Faulty (unready : String → Bool) (o : Occurrence) (e : ScopeError) : Prop :=
  o.Violates e ∨ ∃ site name, o.node = .expr (.variable site name) ∧ unready name.lexeme ∧
    e = ⟨.readInInitializer, name⟩

/-- The errors are what is wrong in an expression. -/
def Blames (unready : String → Bool) (found : List Finding) (os : List Occurrence) : Prop :=
  ∀ e, e ∈ scopeErrorsOf found ↔ ∃ o ∈ os, o.Faulty unready e

namespace Blames

variable {unready : String → Bool} {fs gs : List Finding} {os ps : List Occurrence}

theorem nil : Blames unready [] [] := fun _ => by simp

theorem append (h : Blames unready fs os) (h' : Blames unready gs ps) :
    Blames unready (fs ++ gs) (os ++ ps) := by
  intro e
  rw [scopeErrorsOf_append, List.mem_append, h, h']
  simp only [List.mem_append, or_and_right, exists_or]

/-- What is found out apart from errors does not matter. -/
theorem quiet (h : Blames unready fs os) (none : scopeErrorsOf gs = []) :
    Blames unready (fs ++ gs) os := by
  intro e
  rw [scopeErrorsOf_append, none, List.append_nil]
  exact h e

/-- The errors at a node. -/
theorem single {o : Occurrence} (rules : ∀ e, e ∈ scopeErrorsOf fs ↔ o.Faulty unready e) :
    Blames unready fs [o] := by
  intro e
  rw [rules]
  simp

/-- At most nodes of an expression nothing can be wrong. -/
theorem node (h : Blames unready fs os) {o : Occurrence} (right : ∀ e, ¬ o.Faulty unready e) :
    Blames unready fs (os ++ [o]) := by
  have last : Blames unready [] [o] := single fun e => by simpa using right e
  have both := h.append last
  rwa [List.append_nil] at both

/-- Without errors nothing is wrong. -/
theorem not_faulty (h : Blames unready fs os) (none : scopeErrorsOf fs = []) :
    ∀ o ∈ os, ∀ e, ¬ o.Faulty unready e := by
  intro o ho e faulty
  have found := (h e).2 ⟨o, ho, faulty⟩
  rw [none] at found
  cases found

end Blames

/-- Nothing is wrong at a node that no rule is about. -/
theorem Occurrence.not_faulty {unready : String → Bool} {around : List Enclosure} {a : Expr}
    (silent : ∀ e, ¬ Violates ⟨around, .expr a⟩ e) (named : a.isName = false) (e : ScopeError) :
    ¬ Faulty unready ⟨around, .expr a⟩ e := by
  rintro (violates | ⟨site, name, same, -, -⟩)
  · exact silent e violates
  · cases same
    cases named

/-- Variables that cannot be read, in a scope that has begun their declaration or in the initializer
of a variable of the whole program. -/
def Scopes.unready (S : Scopes) (pending : Option String) (name : String) : Bool :=
  S.isBegun name || (pending == some name && (S.distance? name).isNone)

mutual

theorem Expr.blames (around : List Enclosure) (pending : Option String) (S : Scopes) : ∀ a : Expr,
    Blames (S.unready pending) (a.findings (contextAt around) pending S) (a.occurrences around)
  | .literal _ => Blames.nil.node (Occurrence.not_faulty (fun _ => nofun) rfl)
  | .grouping a | .unary _ a | .get a _ => by
      rw [Expr.occurrences, Expr.nodes, List.map_append]
      exact (Expr.blames around pending S a).node (Occurrence.not_faulty (fun _ => nofun) rfl)
  | .binary a _ b | .logical a _ b | .set b _ a => by
      rw [Expr.occurrences, Expr.nodes, List.map_append, List.map_append]
      exact ((Expr.blames around pending S a).append (Expr.blames around pending S b)).node
        (Occurrence.not_faulty (fun _ => nofun) rfl)
  | .call a _ as => by
      rw [Expr.occurrences, Expr.nodes, List.map_append, List.map_append]
      exact ((Expr.blames around pending S a).append (Expr.blamesAll around pending S as)).node
        (Occurrence.not_faulty (fun _ => nofun) rfl)
  | .assign site name a => by
      rw [Expr.occurrences, Expr.nodes, List.map_append]
      exact ((Expr.blames around pending S a).quiet (scopeErrorsOf_bind S site name)).node
        (Occurrence.not_faulty (fun _ => nofun) rfl)
  | .variable site name => by
      refine .single (o := ⟨around, .expr (.variable site name)⟩) fun e => ?_
      rw [Expr.findings, scopeErrorsOf_append, scopeErrorsOf_bind, List.append_nil,
        mem_scopeErrorsOf_findingIf]
      constructor
      · rintro ⟨early, rfl⟩
        exact .inr ⟨site, name, rfl, early, rfl⟩
      · rintro (violates | ⟨_, _, same, early, rfl⟩)
        · cases violates
        · cases same
          exact ⟨early, rfl⟩
  | .this site keyword => by
      refine .single (o := ⟨around, .expr (.this site keyword)⟩) fun e => ?_
      rw [Expr.findings]
      constructor
      · intro found
        split at found
        · rename_i outside
          obtain rfl := List.mem_singleton.1 found
          exact .inl (.this (contextAt_enclosing_eq_none.1 outside))
        · cases found
      · rintro (violates | ⟨_, _, same, -⟩)
        · cases violates with
          | this outside =>
              rw [if_pos (contextAt_enclosing_eq_none.2 outside)]
              exact List.mem_singleton_self _
        · cases same
  | .super site keyword method => by
      refine .single (o := ⟨around, .expr (.super site keyword method)⟩) fun e => ?_
      rw [Expr.findings, scopeErrorsOf_append, scopeErrorsOf_bind, List.append_nil,
        scopeErrorsOf_append, List.mem_append, mem_scopeErrorsOf_findingIf,
        mem_scopeErrorsOf_findingIf, decide_eq_true_iff, decide_eq_true_iff,
        contextAt_enclosing_eq_none, contextAt_enclosing_eq_base]
      constructor
      · rintro (⟨outside, rfl⟩ | ⟨inside, rfl⟩)
        · exact .inl (.super outside)
        · exact .inl (.base inside)
      · rintro (violates | ⟨_, _, same, -⟩)
        · cases violates with
          | super outside => exact .inl ⟨outside, rfl⟩
          | base inside => exact .inr ⟨inside, rfl⟩
        · cases same

theorem Expr.blamesAll (around : List Enclosure) (pending : Option String) (S : Scopes) :
    ∀ as : List Expr, Blames (S.unready pending)
      (Expr.findingsAll (contextAt around) pending S as)
      ((Expr.nodesAll as).map fun n => ⟨around, n⟩)
  | [] => .nil
  | a :: as => by
      rw [Expr.findingsAll, Expr.nodesAll, List.map_append]
      exact (Expr.blames around pending S a).append (Expr.blamesAll around pending S as)

end

namespace Scopes

variable {S : Scopes}

/-- Between statements every variable can be read. -/
theorem Settled.unready (h : S.Settled) (name : String) : S.unready none name = false := by
  cases S with
  | nil => rfl
  | cons scope outer =>
      have complete := (settled_cons.1 h).1 name
      simp [Scopes.unready, isBegun, complete]

/-- In the initializer of a variable this one cannot be read. -/
theorem Settled.unready_declare (h : S.Settled) {name : String} (first : S.declares name = false)
    (other : String) :
    (S.declare name).unready (if S.isEmpty then some name else none) other ↔ other = name := by
  cases S with
  | nil =>
      rw [Scopes.declare, Scopes.unready, isBegun, distance?_nil, List.isEmpty_nil, if_pos rfl]
      simpa using eq_comm
  | cons scope outer =>
      have new : ¬ scope.has name := by simpa [declares] using first
      rw [Scopes.declare, if_neg new, Scopes.unready, isBegun]
      by_cases same : other = name
      · simp [same]
      · have complete := (settled_cons.1 h).1 other
        simp [Table.get?_set_of_ne _ _ same, same, complete]

/-- A declaration that is not the first leaves the first one as it is. -/
theorem declare_of_declares {name : String} (again : S.declares name) :
    S.isEmpty = false ∧ S.declare name = S := by
  cases S with
  | nil => cases again
  | cons scope outer =>
      have held : scope.has name := again
      exact ⟨rfl, by rw [declare, if_pos held]⟩

end Scopes

/-! ### Errors in statements -/

/-- What the analysis says about phrases of a scope, where some names are declared again.  Each
error is one of these, or a rule is broken; and there are errors if there is such a name or a rule
is broken. -/
structure Judges (found : List Finding) (again : List Token) (os : List Occurrence) : Prop where
  explained : ∀ e ∈ scopeErrorsOf found,
    (∃ o ∈ os, o.Violates e) ∨ ∃ name ∈ again, e = ⟨.alreadyDeclared, name⟩
  permitted : scopeErrorsOf found = [] → again = [] ∧ ∀ o ∈ os, ∀ e, ¬ o.Violates e

namespace Judges

variable {fs gs : List Finding} {again again' : List Token} {os ps : List Occurrence}

theorem nil : Judges [] [] [] where
  explained _ h := by cases h
  permitted _ := ⟨rfl, fun _ h => by cases h⟩

theorem append (h : Judges fs again os) (h' : Judges gs again' ps) :
    Judges (fs ++ gs) (again ++ again') (os ++ ps) where
  explained e he := by
    rw [scopeErrorsOf_append, List.mem_append] at he
    simp only [List.mem_append, or_and_right, exists_or]
    rcases he with he | he
    · exact (h.explained e he).imp .inl .inl
    · exact (h'.explained e he).imp .inr .inr
  permitted none := by
    rw [scopeErrorsOf_append, List.append_eq_nil_iff] at none
    obtain ⟨once, rules⟩ := h.permitted none.1
    obtain ⟨once', rules'⟩ := h'.permitted none.2
    exact ⟨by rw [once, once', List.append_nil], List.forall_mem_append.2 ⟨rules, rules'⟩⟩

/-- In expressions nothing is declared. -/
theorem of_blames {unready : String → Bool} (h : Blames unready fs os)
    (ready : ∀ name, unready name = false) : Judges fs [] os where
  explained e he := by
    obtain ⟨o, ho, violates | ⟨site, name, -, early, -⟩⟩ := (h e).1 he
    · exact .inl ⟨o, ho, violates⟩
    · rw [ready] at early
      cases early
  permitted none := ⟨rfl, fun o ho e violates => h.not_faulty none o ho e (.inl violates)⟩

/-- Where names are declared again, another node does not matter. -/
theorem excuse (h : Judges fs again os) (some : again ≠ []) (o : Occurrence) :
    Judges fs again (os ++ [o]) where
  explained e he := (h.explained e he).imp_left fun ⟨o', ho', violates⟩ =>
    ⟨o', List.mem_append_left _ ho', violates⟩
  permitted none := absurd (h.permitted none).1 some

variable {s : Stmt}

/-- A statement declares again what its scopes do.  What is found out at the statement itself is
which of the other rules it breaks. -/
theorem close (h : Judges fs (s.scopes.flatMap (repeatsAfter [])) os) (around : List Enclosure)
    (gs : List Finding) (rules : ∀ e, e ∈ scopeErrorsOf gs ↔
      Occurrence.Violates ⟨around, .stmt s⟩ e ∧ e.fault ≠ .alreadyDeclared) :
    Judges (gs ++ fs) [] (os ++ [⟨around, .stmt s⟩]) where
  explained e he := by
    rw [scopeErrorsOf_append, List.mem_append] at he
    refine .inl ?_
    rcases he with here | inside
    · exact ⟨_, List.mem_concat_self, ((rules e).1 here).1⟩
    · rcases h.explained e inside with ⟨o, ho, violates⟩ | ⟨name, again, rfl⟩
      · exact ⟨o, List.mem_append_left _ ho, violates⟩
      · obtain ⟨names, scope, again⟩ := List.mem_flatMap.1 again
        exact ⟨_, List.mem_concat_self, .declared scope (mem_repeatsAfter_nil.1 again)⟩
  permitted none := by
    rw [scopeErrorsOf_append, List.append_eq_nil_iff] at none
    obtain ⟨once, right⟩ := h.permitted none.2
    refine ⟨rfl, List.forall_mem_append.2 ⟨right, ?_⟩⟩
    intro o ho e violates
    obtain rfl := List.mem_singleton.1 ho
    by_cases declared : e.fault = .alreadyDeclared
    · cases violates with
      | declared scope again =>
          have mem := List.mem_flatMap.2 ⟨_, scope, mem_repeatsAfter_nil.2 again⟩
          rw [once] at mem
          cases mem
      | _ => cases declared
    · have found := (rules e).2 ⟨violates, declared⟩
      rw [none.1] at found
      cases found

/-- A statement that no rule but that on declarations is about. -/
theorem node (h : Judges fs (s.scopes.flatMap (repeatsAfter [])) os) (around : List Enclosure)
    (silent : ∀ e, Occurrence.Violates ⟨around, .stmt s⟩ e → e.fault = .alreadyDeclared) :
    Judges fs [] (os ++ [⟨around, .stmt s⟩]) := by
  refine h.close around [] fun e => ⟨nofun, ?_⟩
  rintro ⟨violates, other⟩
  exact absurd (silent e violates) other

/-- The declaration of a variable, in whose initializer this variable cannot be read. -/
theorem initializer {unready : String → Bool} {around : List Enclosure} {name : Token}
    {value : Expr} (h : Blames unready fs (value.occurrences around))
    (own : ∀ other, unready other ↔ other = name.lexeme) :
    Judges fs [] (value.occurrences around ++ [⟨around, .stmt (.var name (some value))⟩]) where
  explained e he := by
    obtain ⟨o, ho, violates | ⟨site, read, same, early, rfl⟩⟩ := (h e).1 he
    · exact .inl ⟨o, List.mem_append_left _ ho, violates⟩
    · obtain ⟨n, hn, rfl⟩ := List.mem_map.1 ho
      obtain rfl : n = .expr (.variable site read) := same
      exact .inl ⟨_, List.mem_concat_self, .initialized hn ((own _).1 early)⟩
  permitted none := by
    have right := h.not_faulty none
    refine ⟨rfl, List.forall_mem_append.2 ⟨fun o ho e violates => right o ho e (.inl violates), ?_⟩⟩
    intro o ho e violates
    obtain rfl := List.mem_singleton.1 ho
    cases violates with
    | declared scope => cases scope
    | initialized inside same =>
        exact right _ (List.mem_map_of_mem inside) _ (.inr ⟨_, _, rfl, (own _).2 same, rfl⟩)

/-- The declaration of a name. -/
theorem declaration (S : Scopes) (name : Token) :
    Judges (declarationFindings S name) ([name].filter fun n => S.declares n.lexeme) [] := by
  rw [declarationFindings, List.filter_singleton]
  cases S.declares name.lexeme with
  | false => exact .nil
  | true =>
      refine ⟨fun e he => .inr ⟨name, ?_, List.mem_singleton.1 he⟩, fun none => by cases none⟩
      exact List.mem_singleton_self name

/-- The declaration of a name, and what follows it. -/
theorem declare (h : Judges fs [] os) (S : Scopes) (name : Token) :
    Judges (declarationFindings S name ++ fs) ([name].filter fun n => S.declares n.lexeme) os := by
  have both := (declaration S name).append h
  rwa [List.append_nil] at both

end Judges

theorem scopeErrorsOf_superclassFindings {name : Token} {clause : Expr} {e : ScopeError} :
    e ∈ scopeErrorsOf (superclassFindings name clause) ↔ ∃ site superclass,
      clause = .variable site superclass ∧ superclass.lexeme = name.lexeme ∧
        e = ⟨.inheritsFromItself, superclass⟩ := by
  cases clause with
  | «variable» site superclass =>
      rw [superclassFindings, mem_scopeErrorsOf_findingIf, decide_eq_true_iff]
      constructor
      · rintro ⟨same, rfl⟩
        exact ⟨site, superclass, rfl, same, rfl⟩
      · rintro ⟨_, _, same, found⟩
        cases same
        exact found
  | _ =>
      constructor
      · rintro ⟨⟩
      · rintro ⟨_, _, same, -⟩
        cases same

/-- The innermost scope holds the names of a body. -/
theorem Reflects.declares {S : Scopes} {owner : Owner} {begun : List Stmt}
    {around : List Enclosure} (h : Reflects S (.body owner begun :: around)) (name : String) :
    S.declares name =
      decide (name ∈ (owner.parameters ++ Stmt.introducedAll begun).map Token.lexeme) := by
  cases h with
  | cons same _ => exact Bool.eq_iff_iff.2 ((same name).trans decide_eq_true_iff.symm)

/-- Parameters that are declared again. -/
theorem Judges.introduceAll (S : Scopes) (known names : List Token) {scope : Scope}
    (same : ∀ name, scope.has name ↔ name ∈ known.map Token.lexeme) :
    Judges (Scopes.introduceAll (scope :: S) names).2 (repeatsAfter known names) [] := by
  induction names generalizing known scope with
  | nil => exact .nil
  | cons name names ih =>
      obtain ⟨inner, introduced, more⟩ := Scopes.has_introduce scope S name
      have same' (other : String) :
          inner.has other ↔ other ∈ (known ++ [name]).map Token.lexeme := by
        rw [more, same, List.map_append, List.mem_append, List.map_singleton, List.mem_singleton,
          or_comm]
      have rest := ih (known ++ [name]) same'
      have again : ([name].filter fun n => Scopes.declares (scope :: S) n.lexeme) =
          if name.lexeme ∈ known.map Token.lexeme then [name] else [] := by
        simp [List.filter_singleton, Scopes.declares, same]
      have first := Judges.declaration (scope :: S) name
      rw [again] at first
      rw [← introduced] at rest
      exact first.append rest

/-- A statement that continues a body declares its name again, or it does not. -/
theorem repeatsAfter_introduced (known : List Token) (s : Stmt) :
    repeatsAfter known s.introduced =
      s.introduced.filter fun name => name.lexeme ∈ known.map Token.lexeme := by
  cases s <;> simp [Stmt.introduced, repeatsAfter, List.filter_singleton]

/-- What the statements of a body declare again, one after the other. -/
theorem repeatsAfter_body (parameters : List Token) (begun : List Stmt) (s : Stmt)
    (ss : List Stmt) :
    repeatsAfter (parameters ++ Stmt.introducedAll begun) (Stmt.introducedAll (s :: ss)) =
      repeatsAfter (parameters ++ Stmt.introducedAll begun) s.introduced ++
        repeatsAfter (parameters ++ Stmt.introducedAll (begun ++ [s])) (Stmt.introducedAll ss) := by
  simp only [Stmt.introducedAll, List.flatMap_cons, List.flatMap_append, List.flatMap_nil,
    List.append_nil, repeatsAfter_append, List.append_assoc]

/-- A superclass clause is a name, for which the context does not matter. -/
theorem Expr.blames_of_isName (around : List Enclosure) (context : Context) (S : Scopes)
    {clause : Expr} (named : clause.isName) :
    Blames (S.unready none) (clause.findings context none S) (clause.occurrences around) := by
  cases clause with
  | «variable» site name => exact Expr.blames around none S (.variable site name)
  | _ => cases named

theorem Stmt.introduced_of_isPlain {s : Stmt} (plain : s.isPlain) : s.introduced = [] := by
  cases s <;> first | rfl | cases plain

mutual

theorem Stmt.judged {S : Scopes} {around : List Enclosure} : ∀ s : Stmt, S.Settled →
    Reflects (s.after S) around → (∀ n ∈ s.nodes, n.WellFormed) →
    Judges (s.findings (contextAt around) S).2
      (s.introduced.filter fun name => S.declares name.lexeme) (s.occurrences around)
  | .expression e, settled, _, _ | .print e, settled, _, _ =>
      (Judges.of_blames (Expr.blames around none S e) settled.unready).node around fun _ => nofun
  | .var name none, _, _, _ => by
      have silent : Judges [] [] [⟨around, .stmt (.var name none)⟩] :=
        Judges.nil.node (s := .var name none) around fun _ => nofun
      have found := silent.declare S name
      rwa [List.append_nil] at found
  | .var name (some e), settled, _, _ => by
      have value := Expr.blames around
        (if S.isEmpty then some name.lexeme else none) (S.declare name.lexeme) e
      cases first : S.declares name.lexeme with
      | true =>
          -- A name that is declared again stays ready, and the initializer may read it.
          obtain ⟨filled, same⟩ := Scopes.declare_of_declares first
          have ready (other : String) : (S.declare name.lexeme).unready
              (if S.isEmpty then some name.lexeme else none) other = false := by
            rw [filled, same]
            exact settled.unready other
          have found := (Judges.of_blames value ready).declare S name
          exact found.excuse (by simp [first]) _
      | false =>
          have own := settled.unready_declare first
          exact (Judges.initializer value own).declare S name
  | .block body, settled, h, formed => by
      have inside : ∀ n ∈ Stmt.nodesAll body, n.WellFormed :=
        fun n hn => formed n (by simp [Stmt.nodes, hn])
      have within : Judges _ (repeatsAfter [] (Stmt.introducedAll body)) _ :=
        Stmt.judgedAll .block body settled.inside h.block inside
      rw [← List.flatMap_singleton (repeatsAfter [])] at within
      exact within.node (s := .block body) around fun e violates => by
        cases violates
        rfl
  | .branch e s none, settled, h, formed | .while e s, settled, h, formed => by
      have inside : ∀ n ∈ s.nodes, n.WellFormed := fun n hn => formed n (by simp [Stmt.nodes, hn])
      have body := Stmt.judged s settled h inside
      rw [Stmt.introduced_of_isPlain (formed _ (Stmt.self_mem_nodes _))] at body
      exact ((Judges.of_blames (Expr.blames around none S e) settled.unready).append body).node
        around fun _ => nofun
  | .branch e s (some s'), settled, h, formed => by
      have first : ∀ n ∈ s.nodes, n.WellFormed := fun n hn => formed n (by simp [Stmt.nodes, hn])
      have second : ∀ n ∈ s'.nodes, n.WellFormed := fun n hn => formed n (by simp [Stmt.nodes, hn])
      have plain : s.isPlain ∧ s'.isPlain := formed _ (Stmt.self_mem_nodes _)
      have same : s.after S = S := Stmt.after_of_isPlain S first plain.1
      have same' : s'.after S = S := Stmt.after_of_isPlain S second plain.2
      rw [Stmt.after, same, same'] at h
      have consequence := Stmt.judged s settled (same.symm ▸ h) first
      have alternative := Stmt.judged s' settled (same'.symm ▸ h) second
      rw [Stmt.introduced_of_isPlain plain.1] at consequence
      rw [Stmt.introduced_of_isPlain plain.2] at alternative
      have last : Judges (s'.findings (contextAt around) (s.findings (contextAt around) S).1).2 []
          (s'.occurrences around) := by
        rw [Stmt.findings_fst, same]
        exact alternative
      have condition := Judges.of_blames (Expr.blames around none S e) settled.unready
      exact ((condition.append consequence).append last).node around fun _ => nofun
  | .function d, settled, h, formed => by
      have inside : ∀ n ∈ d.nodes, n.WellFormed := fun n hn => formed n (by simp [Stmt.nodes, hn])
      have body := FunctionDecl.judged .function d (settled.introduce d.name) h inside
      rw [← List.flatMap_singleton (repeatsAfter [])] at body
      have found := body.node (s := .function d) around fun e violates => by
        cases violates
        rfl
      exact found.declare S d.name
  | .return keyword none, settled, _, _ => by
      have found := Judges.nil.close (s := .return keyword none) around
        (findingIf ((contextAt around).function = .none) .returnOutsideFunction keyword) fun e => ?_
      · rwa [List.append_nil] at found
      · rw [mem_scopeErrorsOf_findingIf, decide_eq_true_iff, contextAt_function_eq_none]
        constructor
        · rintro ⟨outside, rfl⟩
          exact ⟨.returned outside, nofun⟩
        · rintro ⟨violates, other⟩
          cases violates with
          | declared => contradiction
          | returned outside => exact ⟨outside, rfl⟩
  | .return keyword (some e), settled, h, _ => by
      have value := Judges.of_blames (Expr.blames around none S e) settled.unready
      refine value.close (s := .return keyword (some e)) around _ fun e => ?_
      rw [scopeErrorsOf_append, List.mem_append, mem_scopeErrorsOf_findingIf,
        mem_scopeErrorsOf_findingIf, decide_eq_true_iff, decide_eq_true_iff,
        contextAt_function_eq_none, contextAt_function_eq_initializer]
      constructor
      · rintro (⟨outside, rfl⟩ | ⟨⟨d, inside, initializer⟩, rfl⟩)
        · exact ⟨.returned outside, nofun⟩
        · exact ⟨.yielded inside initializer, nofun⟩
      · rintro ⟨violates, other⟩
        cases violates with
        | declared => contradiction
        | returned outside => exact .inl ⟨outside, rfl⟩
        | yielded inside initializer => exact .inr ⟨⟨_, inside, initializer⟩, rfl⟩
  | .class name none ds, settled, h, formed => by
      have inside : ∀ n ∈ Stmt.nodesOfMethods ds, n.WellFormed :=
        fun n hn => formed n (by simp [Stmt.nodes, hn])
      have methods := Stmt.judgedOfMethods ds ((settled.introduce name).holding "this")
        (h.holding (e := .methods none) rfl) inside
      have found := methods.node (s := .class name none ds) around fun e violates => by
        cases violates
        rfl
      exact found.declare S name
  | .class name (some e) ds, settled, h, formed => by
      have here := formed _ (Stmt.self_mem_nodes (.class name (some e) ds))
      have inside : ∀ n ∈ Stmt.nodesOfMethods ds, n.WellFormed :=
        fun n hn => formed n (by simp [Stmt.nodes, hn])
      have clause := Expr.blames_of_isName around
        { contextAt around with enclosing := .derived } (S.introduce name) (here.2.1 e rfl)
      have methods := Stmt.judgedOfMethods ds
        (((settled.introduce name).holding "super").holding "this")
        ((h.holding (e := .inherited) rfl).holding (e := .methods (some e)) rfl) inside
      have within := (Judges.of_blames clause (settled.introduce name).unready).append methods
      have found := within.close (s := .class name (some e) ds) around
        (superclassFindings name e) fun fault => ?_
      · have all := found.declare S name
        rw [← List.append_assoc, ← List.append_assoc] at all
        exact all
      · rw [scopeErrorsOf_superclassFindings]
        constructor
        · rintro ⟨site, superclass, rfl, same, rfl⟩
          exact ⟨.inherits same, nofun⟩
        · rintro ⟨violates, other⟩
          cases violates with
          | declared => contradiction
          | inherits same => exact ⟨_, _, rfl, same, rfl⟩

theorem Stmt.judgedAll {S : Scopes} {around : List Enclosure} (owner : Owner)
    {begun : List Stmt} : ∀ ss : List Stmt, S.Settled →
    Reflects S (.body owner begun :: around) → (∀ n ∈ Stmt.nodesAll ss, n.WellFormed) →
    Judges (Stmt.findingsAll (contextAt (.body owner begun :: around)) S ss)
      (repeatsAfter (owner.parameters ++ Stmt.introducedAll begun) (Stmt.introducedAll ss))
      (Stmt.occurrencesAll owner around begun ss)
  | [], _, _, _ => .nil
  | s :: ss, settled, h, formed => by
      rw [Stmt.nodesAll, List.forall_mem_append] at formed
      rw [Stmt.findingsAll_cons, Stmt.occurrencesAll, ← contextAt_append owner begun s around]
      have after := h.after formed.1
      have both := (Stmt.judged s settled after formed.1).append
        (Stmt.judgedAll owner ss (settled.after s) after formed.2)
      rw [repeatsAfter_body, repeatsAfter_introduced]
      simp only [← h.declares]
      exact both

theorem Stmt.judgedOfMethods {S : Scopes} {around : List Enclosure} : ∀ ds : List FunctionDecl,
    S.Settled → Reflects S around → (∀ n ∈ Stmt.nodesOfMethods ds, n.WellFormed) →
    Judges (Stmt.findingsOfMethods (contextAt around) S ds)
      ((ds.map FunctionDecl.declared).flatMap (repeatsAfter []))
      (Stmt.occurrencesOfMethods around ds)
  | [], _, _, _ => .nil
  | d :: ds, settled, h, formed => by
      rw [Stmt.nodesOfMethods, List.forall_mem_append] at formed
      exact (FunctionDecl.judged .method d settled h formed.1).append
        (Stmt.judgedOfMethods ds settled h formed.2)

theorem FunctionDecl.judged {S : Scopes} {around : List Enclosure} (form : FunctionForm) :
    ∀ d : FunctionDecl, S.Settled → Reflects S around → (∀ n ∈ d.nodes, n.WellFormed) →
    Judges (d.findings (functionContext form d) (contextAt around) S)
      (repeatsAfter [] d.declared) (d.occurrences form around)
  | ⟨name, parameters, body⟩, settled, h, formed => by
      have inside := Stmt.judgedAll (.function form ⟨name, parameters, body⟩) body
        (settled.inside.introduceAll parameters) (h.function form name parameters body) formed
      rw [Stmt.introducedAll, List.flatMap_nil, List.append_nil] at inside
      rw [FunctionDecl.declared, repeatsAfter_append]
      exact (Judges.introduceAll S [] parameters fun _ => by simp [Table.has]).append inside

end

/-- The statements of a program may declare a name any number of times. -/
theorem judges_analyze {ss : List Stmt} (formed : ∀ n ∈ Stmt.nodesAll ss, n.WellFormed) :
    Judges (analyze ss) [] (occurrences ss) := by
  induction ss with
  | nil => exact .nil
  | cons s ss ih =>
      rw [Stmt.nodesAll, List.forall_mem_append] at formed
      rw [analyze, Stmt.findingsAll_cons, occurrences, List.flatMap_cons, Stmt.after_nil]
      have top : Reflects (s.after []) [] := by
        rw [Stmt.after_nil]
        exact .nil
      have first := Stmt.judged s Scopes.settled_nil top formed.1
      simp only [Scopes.declares, List.filter_false] at first
      exact first.append (ih formed.2)

/-- The analysis of what the grammar yields finds no error if and only if the program is
well-scoped, and every error that it finds is the violation of a rule. -/
theorem accepts_well_scoped (tokens : List Token) (firstSite : Site) :
    let statements := (parse tokens firstSite).statements
    (scopeErrorsOf (analyze statements) = [] ↔ WellScoped statements) ∧
      ∀ e ∈ scopeErrorsOf (analyze statements), ∃ o ∈ occurrences statements, o.Violates e := by
  intro statements
  obtain ⟨_, built, -⟩ := parse_built tokens firstSite
  have judged : Judges (analyze statements) [] (occurrences statements) :=
    judges_analyze built.formed
  have explained (e : ScopeError) (he : e ∈ scopeErrorsOf (analyze statements)) :
      ∃ o ∈ occurrences statements, o.Violates e := by
    rcases judged.explained e he with violation | ⟨name, again, -⟩
    · exact violation
    · cases again
  refine ⟨⟨fun none => (judged.permitted none).2, fun right => ?_⟩, explained⟩
  refine List.eq_nil_iff_forall_not_mem.2 fun e he => ?_
  obtain ⟨o, ho, violates⟩ := explained e he
  exact right o ho e violates

/-- Declarations of a program and methods of a class may repeat a name, declarations of a block may
not. -/
theorem accepts_well_scoped_repeated :
    let source := "var a; var a = 2; class C \x7b m() \x7b\x7d m() \x7b\x7d \x7d"
    let accepted := (parse (tokensOf (scan source)) 0).statements
    let rejected := (parse (tokensOf (scan "\x7b var a; var a = 2; \x7d")) 0).statements
    WellScoped accepted ∧
      ∃ o ∈ occurrences rejected, o.Violates ⟨.alreadyDeclared, ⟨.identifier, "a", 1⟩⟩ := by
  intro source accepted rejected
  have none : scopeErrorsOf (analyze accepted) = [] := by decide +kernel
  have found : ⟨.alreadyDeclared, ⟨.identifier, "a", 1⟩⟩ ∈ scopeErrorsOf (analyze rejected) := by
    decide +kernel
  exact ⟨(accepts_well_scoped _ 0).1.1 none, (accepts_well_scoped _ 0).2 _ found⟩

end Lox
