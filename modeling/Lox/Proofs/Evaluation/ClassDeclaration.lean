import Lox.Proofs.Evaluation.Sequence
import Lox.Proofs.Session.Grounded

/-!
# Declarations of classes

To execute the declaration of a class is to do all of it or nothing.  It fails only if its
superclass clause does (`Machine.Refuses`), and then the machine is as it was.  Otherwise the name
names the new class where the declaration stands (`Machine.Declares`): nothing is left of the value
that the name has while the methods are made, and no other binding is different.

The name is bound twice, to the class at last by an assignment.  This assignment finds the name
where the declaration has put it, whatever the environments around it hold
(`Run.exists_declareClass`).
-/

namespace Lox

def lastNamed (name : String) (methods : List FunctionDecl) : Option FunctionDecl :=
  methods.reverse.find? fun d => d.name.lexeme == name

/-- What a superclass clause names. -/
inductive Machine.Inherits (m : Machine) : Option Expr → Option ClassId → Prop
  | none : m.Inherits none none
  | some {site : Site} {name : Token} {above : ClassId}
      (held : m.valueAt? site name.lexeme = some (.class above)) :
      m.Inherits (some (.variable site name)) (some above)

/-- The error of a superclass clause: its name has no value, or one that is no class. -/
inductive Machine.Refuses (m : Machine) : Option Expr → RuntimeError → Prop
  | undefined {site : Site} {name : Token} (free : m.valueAt? site name.lexeme = none) :
      m.Refuses (some (.variable site name)) ⟨.undefinedVariable, name⟩
  | notClass {site : Site} {name : Token} {v : Value}
      (held : m.valueAt? site name.lexeme = some v) (other : ∀ id, v ≠ .class id) :
      m.Refuses (some (.variable site name)) ⟨.superclassNotClass, name⟩

/-- The environment that methods are closed over: the one of the declaration, or one inside it that
holds the superclass and nothing else. -/
def Forest.Opened (f : Forest) (current : EnvironmentId) :
    Option ClassId → EnvironmentId → Prop
  | none, closure => closure = current
  | some above, closure => f.enclosing? closure = some current ∧
      ∀ key, f.own? closure key = if key = superName then some (.class above) else none

/-- The other machine is this one after a class was declared in its current environment. -/
structure Machine.Declares (m : Machine) (name : Token) (superclass : Option ClassId)
    (methods : List FunctionDecl) (id : ClassId) (m' : Machine) : Prop where
  /-- Only environments and classes are different. -/
  machine : m' = { m with heap :=
    { m.heap with forest := m'.heap.forest, classes := m'.heap.classes } }
  made : ∃ c : Class, m'.heap.classes = m.heap.classes.push c ∧ c.name = name.lexeme ∧
    c.superclass = superclass
  new : id = ⟨m.heap.classes.size⟩
  bound : m'.heap.forest.own? m.current name.lexeme = some (.class id)
  others : ∀ (e : EnvironmentId) (other : String), e.index < m.heap.forest.environments.size →
    e ≠ m.current ∨ other ≠ name.lexeme →
      m'.heap.forest.own? e other = m.heap.forest.own? e other
  enclosing : ∀ e : EnvironmentId, e.index < m.heap.forest.environments.size →
    m'.heap.forest.enclosing? e = m.heap.forest.enclosing? e
  /-- The methods are those of the body, a later one instead of an earlier one with its name, and
  the ones of the superclass. -/
  methods : ∃ closure, m'.heap.forest.Opened m.current superclass closure ∧
    ∀ key, m'.heap.method? id key =
      ((lastNamed key methods).map fun d => ⟨d, closure, key == initializerName⟩).or
        (superclass.bind fun above => m'.heap.method? above key)
  /-- The classes that were there have the methods that they had. -/
  older : ∀ other : ClassId, other.index < m.heap.classes.size → ∀ key,
    m'.heap.method? other key = m.heap.method? other key
  arity : (m'.heap.callable? (.class id)).map Callable.arity =
    some (((m'.heap.method? id initializerName).map fun f =>
      f.declaration.parameters.length).getD 0)

/-! ### Methods -/

theorem get?_methodTable (closure : EnvironmentId) (ds : List FunctionDecl) (key : String) :
    (Run.methodTable closure ds).get? key =
      (lastNamed key ds).map fun d => ⟨d, closure, key == initializerName⟩ := by
  induction ds using List.reverseRecOn with
  | nil => rfl
  | append_singleton ds d ih =>
      rw [Run.methodTable, List.foldl_append, List.foldl_cons, List.foldl_nil, lastNamed,
        List.reverse_append, List.reverse_singleton, List.singleton_append, List.find?_cons]
      by_cases same : d.name.lexeme = key
      · subst same
        rw [Table.get?_set_self, beq_self_eq_true]
        rfl
      · rw [Table.get?_set_of_ne _ _ (Ne.symm same), beq_false_of_ne same]
        exact ih

/-- The methods of a class that is there do not change when another one is made. -/
theorem Heap.Grounded.method?_pushClass {h : Heap} (grounded : h.Grounded) (f : Forest) (c : Class)
    {id : ClassId} (there : id.index < h.classes.size) (key : String) :
    Heap.method? { h with forest := f, classes := h.classes.push c } id key =
      h.method? id key := by
  rw [Heap.method?, Heap.method?]
  generalize id.index + 1 = bound
  induction bound generalizing id with
  | zero => rfl
  | succ bound ih =>
      rw [Heap.methodWithin?, Heap.methodWithin?, Array.getElem?_push_lt there,
        Array.getElem?_eq_getElem there]
      cases above : h.classes[id.index].superclass with
      | none => simp [above]
      | some above' =>
          have older := grounded.superclass (Array.getElem?_eq_getElem there) above
          simp [above, ih (Nat.lt_trans older there)]

/-! ### Environments -/

namespace Forest

variable {f : Forest} {current : EnvironmentId}

theorem next_ne (made : current.index < f.environments.size) : f.next ≠ current := by
  rintro rfl
  exact Nat.lt_irrefl _ made

/-- The environment of the methods is still the same after a definition around it. -/
theorem Opened.define {closure : EnvironmentId} {above : Option ClassId}
    (opened : f.Opened current above closure) (apart : above.isSome → closure ≠ current)
    (name : String) (value : Value) :
    (f.define current name value).Opened current above closure := by
  cases above with
  | none => exact opened
  | some above =>
      refine ⟨by rw [enclosing?_define, opened.1], fun key => ?_⟩
      rw [own?_define_of_ne f value (.inl (apart rfl)), opened.2]

end Forest

namespace Run

variable {m : Machine}

/-- The environment of the methods is made, and those that are there stay as they are. -/
theorem exists_methodEnvironment (here : m.current.index < m.heap.forest.environments.size)
    (above : Option ClassId) :
    ∃ closure f, methodEnvironment above m =
        .ok closure { m with heap := { m.heap with forest := f } } ∧
      (∀ e : EnvironmentId, e.index < m.heap.forest.environments.size →
        f.environment? e = m.heap.forest.environment? e) ∧
      f.Opened m.current above closure ∧ (above.isSome → closure ≠ m.current) := by
  cases above with
  | none => exact ⟨m.current, m.heap.forest, rfl, fun _ _ => rfl, rfl, fun h => by cases h⟩
  | some above =>
      refine ⟨m.heap.forest.next, _, rfl, fun e made => ?_, ⟨?_, fun key => ?_⟩,
        fun _ => Forest.next_ne here⟩
      · have old : m.heap.forest.next ≠ e := Forest.next_ne made
        rw [Forest.environment?_define, Forest.environment?_grow_of_lt _ _ made]
        simp [old]
      · rw [Forest.enclosing?_define, Forest.enclosing?_grow, if_pos rfl]
      · split
        · rename_i same
          subst same
          exact Forest.own?_define_self _ _ _ _ (by simp)
        · rename_i other
          rw [Forest.own?_define_of_ne _ _ (.inr other), Forest.own?,
            Forest.environment?_grow_next]
          rfl

/-- What a declaration does: it binds the name, makes the environment of the methods, adds the class
and assigns it to the name, which is found where it was bound. -/
theorem exists_declareClass_eq (here : m.current.index < m.heap.forest.environments.size)
    (name : Token) (above : Option ClassId) (methods : List FunctionDecl) :
    ∃ (closure : EnvironmentId) (f : Forest),
      (∀ e : EnvironmentId, e.index < m.heap.forest.environments.size →
        f.environment? e = (m.heap.forest.define m.current name.lexeme .nil).environment? e) ∧
      f.Opened m.current above closure ∧ (above.isSome → closure ≠ m.current) ∧
      declareClass name above methods m = .ok () { m with heap := { m.heap with
        forest := f.define m.current name.lexeme (.class ⟨m.heap.classes.size⟩)
        classes := m.heap.classes.push ⟨name.lexeme, above, methodTable closure methods⟩ } } := by
  let bound : Machine :=
    { m with heap := { m.heap with forest := m.heap.forest.define m.current name.lexeme .nil } }
  have size : bound.heap.forest.environments.size = m.heap.forest.environments.size :=
    Forest.size_define _ _ _ _
  obtain ⟨closure, f, opened, same, scope, apart⟩ :=
    exists_methodEnvironment (m := bound) (size ▸ here) above
  have holder : f.holder? bound.current name.lexeme = some m.current := by
    have held : f.own? bound.current name.lexeme = some .nil := by
      rw [Forest.own?, same m.current (size ▸ here)]
      exact Forest.own?_define_self _ _ _ _ (Forest.isSome_environment? _ here)
    rw [Forest.holder?, Forest.holderWithin?, held]
    rfl
  refine ⟨closure, f, fun e made => same e (size ▸ made), scope, apart, ?_⟩
  rw [declareClass, bind_of_ok (x := defineHere name.lexeme .nil) rfl, bind_of_ok opened,
    bind_of_ok (x := newClass ⟨name.lexeme, above, methodTable closure methods⟩) rfl,
    bind_of_ok (x := get) rfl]
  simp only [holder]
  rfl

/-- A class with a superclass that is there can be declared in any environment that is there. -/
theorem exists_declareClass (grounded : m.Grounded) (here : m.heap.Made (.environment m.current))
    (name : Token) (above : Option ClassId)
    (inside : ∀ id ∈ above, (Value.class id).In m.heap.Made) (methods : List FunctionDecl) :
    ∃ id m', declareClass name above methods m = .ok () m' ∧
      m.Declares name above methods id m' := by
  obtain ⟨closure, f, same, scope, apart, ran⟩ := exists_declareClass_eq here name above methods
  obtain ⟨⟨_, grounded'⟩, rfl, -, -⟩ :=
    (Grounding.declareClass (s := ⟨m, grounded⟩) here name inside methods).exists_of_ok ran
  have search := grounded'.1.searchable.method
  refine ⟨⟨m.heap.classes.size⟩, _, ran, rfl, ⟨_, rfl, rfl, rfl⟩, rfl, ?_, ?_, ?_, ?_, ?_, ?_⟩
  · refine Forest.own?_define_self _ _ _ _ ?_
    rw [same m.current here]
    refine Forest.isSome_environment? _ ?_
    rw [Forest.size_define]
    exact here
  · intro e other made apart'
    rw [Forest.own?_define_of_ne f _ apart', Forest.own?, same e made, ← Forest.own?,
      Forest.own?_define_of_ne _ _ apart']
  · intro e made
    rw [Forest.enclosing?_define, Forest.enclosing?, same e made, ← Forest.enclosing?,
      Forest.enclosing?_define]
  · refine ⟨closure, scope.define apart name.lexeme _, fun key => ?_⟩
    rw [search, Array.getElem?_push_size, Option.bind_some, get?_methodTable]
  · exact fun other there key => grounded.1.method?_pushClass _ _ there key
  · change some (Callable.arity (.class _ (Heap.method? _ _ initializerName))) = _
    generalize Heap.method? _ _ initializerName = initializer
    cases initializer <;> rfl

/-! ### Superclass clauses -/

theorem lookUp_of_some {site : Site} {name : Token} {v : Value}
    (held : m.valueAt? site name.lexeme = some v) : lookUp site name m = .ok v m := by
  rw [lookUp, bind_of_ok (x := get) rfl]
  simp only [held]
  rfl

theorem lookUp_of_none {site : Site} {name : Token}
    (free : m.valueAt? site name.lexeme = none) :
    lookUp site name m = .error (.error ⟨.undefinedVariable, name⟩) m := by
  rw [lookUp, bind_of_ok (x := get) rfl]
  simp only [free]
  rfl

/-- A superclass clause refuses, or it yields a class that is there.  It changes nothing. -/
theorem superclass_cases (founded : m.Founded) (name : Token) {clause : Expr}
    (named : clause.isName) (fuel : Nat) :
    (∃ e, m.Refuses (some clause) e ∧
      superclass (evaluate (fuel + 1)) name clause m = .error (.error e) m) ∨
    ∃ above, m.Inherits (some clause) (some above) ∧ (Value.class above).In m.heap.Made ∧
      superclass (evaluate (fuel + 1)) name clause m = .ok above m := by
  cases clause with
  | «variable» site token =>
      cases held : m.valueAt? site token.lexeme with
      | none => exact .inl ⟨_, .undefined held, bind_of_error (lookUp_of_none held)⟩
      | some v =>
          have found := lookUp_of_some held
          cases v with
          | «class» above =>
              obtain ⟨_, rfl, -, inside⟩ :=
                (Grounding.lookUp (s := ⟨m, founded.grounded⟩) founded.current site
                  token).exists_of_ok found
              exact .inr ⟨above, .some held, inside, bind_of_ok found⟩
          | _ => exact .inl ⟨_, .notClass held (by simp), bind_of_ok found⟩
  | _ => cases named

end Run

open Run

/-- A class declaration fails with the error of its superclass clause and changes nothing, or the
class is declared.  The errors are that the superclass is not defined and that it is no class. -/
theorem class_all_or_nothing {m : Machine} (founded : m.Founded) (name : Token)
    {clause : Option Expr} (named : ∀ e ∈ clause, e.isName) (methods : List FunctionDecl)
    (fuel : Nat) :
    (∃ e, m.Refuses clause e ∧
      (e.message = "Undefined variable '" ++ e.culprit.lexeme ++ "'." ∨
        e.message = "Superclass must be a class.") ∧
      execute (fuel + 2) (.class name clause methods) m = .error (.error e) m) ∨
    ∃ superclass id m', m.Inherits clause superclass ∧
      execute (fuel + 2) (.class name clause methods) m = .ok .normal m' ∧
      m.Declares name superclass methods id m' := by
  cases clause with
  | none =>
      obtain ⟨id, m', ran, declares⟩ := exists_declareClass founded.grounded founded.current name
        none (fun _ h => by cases h) methods
      exact .inr ⟨none, id, m', .none, bind_of_ok ran, declares⟩
  | some clause =>
      rcases superclass_cases founded name (named clause rfl) fuel with
        ⟨e, refuses, failed⟩ | ⟨above, inherits, inside, found⟩
      · refine .inl ⟨e, refuses, ?_, bind_of_error failed⟩
        cases refuses with
        | undefined free => exact .inl rfl
        | notClass held other => exact .inr rfl
      · obtain ⟨id, m', ran, declares⟩ := exists_declareClass founded.grounded founded.current
          name (some above) (fun _ h => Option.some.inj h ▸ inside) methods
        exact .inr ⟨some above, id, m', inherits, (bind_of_ok found).trans (bind_of_ok ran),
          declares⟩

/-- In a block a class takes the name of a variable of the whole program, and its superclass is
found one environment outward.  Of two methods with one name it has the later one, and its
initializer is inherited.  A class whose superclass is that variable is not declared. -/
theorem class_all_or_nothing_block :
    let outer := (executeAll 9 (Chunk.read
      "class A \x7b init(x, y) \x7b\x7d \x7d var B = 1;" 0).statements).leaves
        (Machine.initial .unlimited fun _ => 0)
    let m : Machine := { outer with
      heap := { outer.heap with forest := outer.heap.forest.grow (some outer.globals) }
      current := outer.heap.forest.next
      distances := outer.distances.insert 0 1 }
    let token (name : String) : Token := ⟨.identifier, name, 2⟩
    let methods : List FunctionDecl :=
      [⟨token "greet", [], []⟩, ⟨token "greet", [token "name"], []⟩]
    m.Founded ∧ (Expr.variable 0 (token "A")).isName ∧ (Expr.variable 1 (token "B")).isName ∧
      (∃ id m', execute 2 (.class (token "B") (some (.variable 0 (token "A"))) methods) m =
          .ok .normal m' ∧
        m.Declares (token "B") (some ⟨0⟩) methods id m' ∧
        m'.heap.forest.get? m.current "B" = some (.class id) ∧
        m'.heap.forest.get? m.globals "B" = some (.number 1) ∧
        (m'.heap.method? id "greet").map (·.declaration.parameters.length) = some 1 ∧
        (m'.heap.callable? (.class id)).map Callable.arity = some 2) ∧
      ∃ e, execute 2 (.class (token "A") (some (.variable 1 (token "B"))) methods) m =
          .error (.error e) m ∧ e.message = "Superclass must be a class." := by
  intro outer m token methods
  have outer_founded : outer.Founded :=
    Grounding.founded_leaves (Machine.founded_initial .unlimited fun _ => 0) 9 _
  have grown : m.heap.forest.environments.size = outer.heap.forest.environments.size + 1 :=
    Array.size_push _
  have founded : m.Founded := by
    refine .of_grounded ⟨outer_founded.grounded.1.grow outer_founded.grounded.2, ?_⟩ ?_
    · exact Nat.lt_of_lt_of_eq (Nat.lt_succ_of_lt outer_founded.grounded.2) grown.symm
    · exact Nat.lt_of_lt_of_eq (Nat.lt_succ_self _) grown.symm
  have above : m.valueAt? 0 "A" = some (.class ⟨0⟩) := by decide +kernel
  have other : m.valueAt? 1 "B" = some (.number 1) := by decide +kernel
  have named (site : Site) (name : Token) : ∀ e ∈ some (Expr.variable site name), e.isName :=
    fun e h => Option.some.inj h ▸ rfl
  refine ⟨founded, rfl, rfl, ?_, ?_⟩
  · have ran : (match execute 2 (.class (token "B") (some (.variable 0 (token "A"))) methods) m with
        | .ok _ m' => decide (m'.heap.forest.get? m.current "B" = some (.class ⟨1⟩) ∧
            m'.heap.forest.get? m.globals "B" = some (.number 1) ∧
            (m'.heap.method? ⟨1⟩ "greet").map (·.declaration.parameters.length) = some 1 ∧
            (m'.heap.callable? (.class ⟨1⟩)).map Callable.arity = some 2)
        | .error _ _ => false) = true := by decide +kernel
    rcases class_all_or_nothing founded (token "B") (named 0 (token "A")) methods 0 with
      ⟨e, -, -, failed⟩ | ⟨superclass, id, m', inherits, done, declares⟩
    · rw [failed] at ran
      cases ran
    · rw [done] at ran
      have same : id = ⟨1⟩ := declares.new.trans (by decide +kernel)
      cases inherits with
      | some held =>
          obtain rfl := Value.class.inj (Option.some.inj (above.symm.trans held))
          exact ⟨id, m', done, declares, same ▸ of_decide_eq_true ran⟩
  · rcases class_all_or_nothing founded (token "A") (named 1 (token "B")) methods 0 with
      ⟨e, refuses, -, failed⟩ | ⟨superclass, id, m', inherits, -, -⟩
    · refine ⟨e, failed, ?_⟩
      cases refuses with
      | undefined free =>
          rw [other] at free
          cases free
      | notClass _ _ => rfl
    · cases inherits with
      | some held =>
          rw [other] at held
          cases held

end Lox
