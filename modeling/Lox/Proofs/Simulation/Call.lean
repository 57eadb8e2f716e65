import Lox.Proofs.Simulation.Step

/-!
# Names and calls side by side

What two matched machines do for a name, a property or a call.  Names that refer to the same
environment have the same value (`Matched.valueAt?`), since both machines have made their
environments in step.  Corresponding functions are called in environments of the same number, and
with the same layout.
-/

namespace Lox

namespace Correspondence

open Run

variable {R : Correspondence} {w : World}

/-! ### Names -/

/-- The environment that a name refers to, and its name there. -/
theorem Matched.holderAt? {m₁ m₂ : Machine} (h : R.Matched w m₁ m₂) {l : Layout}
    (place : w.At l) {s₁ s₂ : Site} {n₁ n₂ : Token} (name : R.Reference l s₁ n₁ s₂ n₂) :
    m₂.holderAt? s₂ n₂.lexeme = m₁.holderAt? s₁ n₁.lexeme ∧
      ∀ e, m₁.holderAt? s₁ n₁.lexeme = some e → n₂.lexeme = w.names e n₁.lexeme := by
  have root := h.sound.root
  have root₂ : (w.forest.rename w.names).enclosing? w.globals = none := by simpa using root
  rw [Machine.holderAt?, Machine.holderAt?, h.distances₁, h.distances₂, name.distance, h.forest₁,
    h.forest₂, h.globals₁, h.globals₂, h.current₁, h.current₂]
  cases hd : R.first[s₁]? with
  | none =>
      have same : n₂.lexeme = w.names w.globals n₁.lexeme := by
        rw [h.sound.globals]
        exact name.global hd
      simp only [Forest.holder?_of_root _ root, Forest.holder?_of_root _ root₂]
      rw [same, Forest.own?_rename]
      refine ⟨rfl, fun e he => ?_⟩
      by_cases own : (w.forest.own? w.globals n₁.lexeme).isSome
      · rw [if_pos own] at he
        exact Option.some.inj he ▸ rfl
      · simp [own] at he
  | some d =>
      obtain ⟨π, hπ, same⟩ := name.here d hd
      obtain ⟨e, he, hnames⟩ := World.Chain.ancestor? place hπ
      simp only [Forest.holderAt?, Forest.ancestor?_rename, he, Option.filter_some]
      rw [same, ← hnames, Forest.own?_rename]
      refine ⟨rfl, fun e' he' => ?_⟩
      by_cases own : (w.forest.own? e n₁.lexeme).isSome
      · rw [if_pos own] at he'
        exact Option.some.inj he' ▸ rfl
      · simp [own] at he'

theorem Matched.valueAt? {m₁ m₂ : Machine} (h : R.Matched w m₁ m₂) {l : Layout}
    (place : w.At l) {s₁ s₂ : Site} {n₁ n₂ : Token} (name : R.Reference l s₁ n₁ s₂ n₂) :
    m₂.valueAt? s₂ n₂.lexeme = m₁.valueAt? s₁ n₁.lexeme := by
  have root := h.sound.root
  have root₂ : (w.forest.rename w.names).enclosing? w.globals = none := by simpa using root
  rw [Machine.valueAt?, Machine.valueAt?, h.distances₁, h.distances₂, name.distance, h.forest₁,
    h.forest₂, h.globals₁, h.globals₂, h.current₁, h.current₂]
  cases hd : R.first[s₁]? with
  | none =>
      simp only [Forest.get?_of_root _ root, Forest.get?_of_root _ root₂, name.global hd]
      have own := w.forest.own?_rename w.names w.globals n₁.lexeme
      rwa [h.sound.globals] at own
  | some d =>
      obtain ⟨π, hπ, same⟩ := name.here d hd
      obtain ⟨e, he, hnames⟩ := World.Chain.ancestor? place hπ
      simp only [Forest.getAt?, Forest.ancestor?_rename, he, Option.bind_some]
      rw [same, ← hnames, Forest.own?_rename]

theorem Sim.lookUp {l : Layout} (place : w.At l) {s₁ s₂ : Site} {n₁ n₂ : Token}
    (name : R.Reference l s₁ n₁ s₂ n₂) :
    R.Sim w (lookUp s₁ n₁) (lookUp s₂ n₂) fun _ a b => a = b := by
  refine Sim.get fun m₁ m₂ matched => ?_
  rw [matched.valueAt? place name]
  cases m₁.valueAt? s₁ n₁.lexeme with
  | none => exact Sim.raise .undefinedVariable name.culprit
  | some value => exact Sim.pure rfl

theorem Sim.overwrite {l : Layout} (place : w.At l) {s₁ s₂ : Site} {n₁ n₂ : Token}
    (name : R.Reference l s₁ n₁ s₂ n₂) (value : Value) :
    R.Sim w (overwrite s₁ n₁ value) (overwrite s₂ n₂ value) fun _ _ _ => True := by
  refine Sim.get fun m₁ m₂ matched => ?_
  obtain ⟨same, renamed⟩ := matched.holderAt? place name
  rw [same]
  cases holder : m₁.holderAt? s₁ n₁.lexeme with
  | none => exact Sim.raise .undefinedVariable name.culprit
  | some e => exact (Sim.define e value (renamed e holder)).imp fun _ _ _ _ _ => trivial

/-- A name that no renaming touches has the same value at a distance. -/
theorem Matched.getAt? {m₁ m₂ : Machine} (h : R.Matched w m₁ m₂) (id : EnvironmentId)
    (distance : Nat) {name : String} (fixed : ∀ e, w.names e name = name) :
    m₂.heap.forest.getAt? id distance name = m₁.heap.forest.getAt? id distance name := by
  rw [Forest.getAt?, Forest.getAt?, h.forest₁, h.forest₂, Forest.ancestor?_rename]
  cases w.forest.ancestor? id distance with
  | none => rfl
  | some e =>
      have own := w.forest.own?_rename w.names e name
      rwa [fixed e] at own

/-! ### Methods -/

/-- The environment of a bound method holds the receiver. -/
theorem Sim.bindMethod (closed : R.Closed) {f₁ f₂ : Function} (f : R.MethodMatch w f₁ f₂)
    (receiver : ObjectId) :
    R.Sim w (bindMethod f₁ receiver) (bindMethod f₂ receiver)
      fun w' g₁ g₂ => R.FunctionMatch w' g₁ g₂ ∧ g₁.declaration = f₁.declaration := by
  obtain ⟨l, chain, d⟩ := f.declaration
  rw [Run.bindMethod, Run.bindMethod, f.closure]
  refine Sim.bind (Sim.newEnvironment f₁.closure closed.one) fun w' a b le h => ?_
  obtain ⟨rfl, rfl, rfl⟩ := h
  have fixed : (w.grow f₁.closure 1).names w.forest.next receiverName = receiverName := by
    simp
  refine Sim.bind (Sim.define w.forest.next (.object receiver) fixed.symm) fun w'' _ _ le' h => ?_
  subst h
  exact Sim.pure ⟨⟨rfl, f.isInitializer, l.push (Scope.holding receiverName) 1,
    chain.holding receiverName (.object receiver), d⟩, rfl⟩

theorem Sim.boundMethod (closed : R.Closed) {f₁ f₂ : Function} (f : R.MethodMatch w f₁ f₂)
    (receiver : ObjectId) :
    R.Sim w (boundMethod f₁ receiver) (boundMethod f₂ receiver) fun _ a b => a = b :=
  Sim.bind (Sim.bindMethod closed f receiver) fun _ _ _ _ h =>
    Sim.bind (Sim.newFunction h.1) fun _ _ _ _ hid => Sim.pure (congrArg Value.function hid)

theorem Sim.property (closed : R.Closed) (id : ObjectId) {n₁ n₂ : Token} (name : R.Word n₁ n₂) :
    R.Sim w (property id n₁) (property id n₂) fun _ a b => a = b := by
  refine Sim.get fun m₁ m₂ matched => ?_
  rw [matched.objects, name.lexeme]
  cases m₁.heap.objects[id.index]? with
  | none => exact Sim.raise .undefinedProperty name.culprit
  | some o =>
      simp only
      cases o.fields.get? n₁.lexeme with
      | some value => exact Sim.pure rfl
      | none =>
          have hm := matched.method? o.classId n₁.lexeme
          generalize m₁.heap.method? o.classId n₁.lexeme = o₁ at hm ⊢
          generalize m₂.heap.method? o.classId n₁.lexeme = o₂ at hm ⊢
          cases hm with
          | none => exact Sim.raise .undefinedProperty name.culprit
          | some f => exact Sim.boundMethod closed f id

theorem Sim.superMethod (closed : R.Closed) {s₁ s₂ : Site} {k₁ k₂ n₁ n₂ : Token}
    (distance : R.second[s₂]? = R.first[s₁]?) (keyword : R.culprit k₁ k₂) (name : R.Word n₁ n₂) :
    R.Sim w (superMethod s₁ k₁ n₁) (superMethod s₂ k₂ n₂) fun _ a b => a = b := by
  refine Sim.get fun m₁ m₂ matched => ?_
  have above (d : Nat) := matched.getAt? w.current d fun e => closed.super (matched.sound.admits e)
  have receiver (d : Nat) :=
    matched.getAt? w.current d fun e => closed.receiver (matched.sound.admits e)
  rw [matched.distances₁, matched.distances₂, matched.current₁, matched.current₂, distance]
  cases R.first[s₁]? with
  | none => exact Sim.raise .undefinedVariable keyword
  | some d =>
      simp only [above, receiver, name.lexeme]
      cases m₁.heap.forest.getAt? w.current d superName with
      | none => exact Sim.raise .undefinedVariable keyword
      | some v =>
          cases v with
          | «class» id =>
              cases d with
              | zero => exact Sim.raise .superOutsideMethod keyword
              | succ inner =>
                  simp only
                  cases m₁.heap.forest.getAt? w.current inner receiverName with
                  | none => exact Sim.raise .superOutsideMethod keyword
                  | some v =>
                      cases v with
                      | object o =>
                          have hm := matched.method? id n₁.lexeme
                          simp only
                          generalize m₁.heap.method? id n₁.lexeme = o₁ at hm ⊢
                          generalize m₂.heap.method? id n₁.lexeme = o₂ at hm ⊢
                          cases hm with
                          | none => exact Sim.raise .undefinedProperty name.culprit
                          | some f => exact Sim.boundMethod closed f o
                      | _ => exact Sim.raise .superOutsideMethod keyword
          | _ => exact Sim.raise .undefinedVariable keyword

/-! ### Calls -/

/-- Two evaluators that evaluate corresponding expressions alike. -/
def Evaluates (R : Correspondence) (evaluate₁ evaluate₂ : Expr → Run Value) : Prop :=
  ∀ {w l e₁ e₂}, R.expr l e₁ e₂ → w.At l →
    R.Sim w (evaluate₁ e₁) (evaluate₂ e₂) fun _ a b => a = b

/-- Two executors that execute corresponding statements alike.  After a normal end the current
environment holds what the statement declares. -/
def Executes (R : Correspondence) (execute₁ execute₂ : Stmt → Run Flow) : Prop :=
  ∀ {w l after s₁ s₂}, R.stmt l after s₁ s₂ → w.At l →
    R.Sim w (execute₁ s₁) (execute₂ s₂) fun w' a b => a = b ∧ (a = .normal → w'.At after)

variable {evaluate₁ evaluate₂ : Expr → Run Value} {execute₁ execute₂ : Stmt → Run Flow}

theorem Sim.sequence (hx : R.Executes execute₁ execute₂) {l : Layout} {ss₁ ss₂ : List Stmt}
    (h : R.Statements l ss₁ ss₂) (place : w.At l) :
    R.Sim w (sequence execute₁ ss₁) (sequence execute₂ ss₂) fun _ a b => a = b := by
  induction h generalizing w with
  | nil => exact Sim.pure rfl
  | cons head _ ih =>
      refine Sim.bind (hx head place) fun w' a b _ hab => ?_
      obtain ⟨rfl, after⟩ := hab
      cases a with
      | normal => exact ih (after rfl)
      | returned value => exact Sim.pure rfl

theorem Sim.evaluateAll (he : R.Evaluates evaluate₁ evaluate₂) {l : Layout} {es₁ es₂ : List Expr}
    (h : List.Forall₂ (R.expr l) es₁ es₂) (place : w.At l) :
    R.Sim w (evaluateAll evaluate₁ es₁) (evaluateAll evaluate₂ es₂) fun _ a b => a = b := by
  induction h generalizing w with
  | nil => exact Sim.pure rfl
  | cons head _ ih =>
      refine Sim.bind (he head place) fun w' a b le hab => ?_
      refine Sim.bind (ih (place.mono le)) fun _ as bs _ hs => Sim.pure ?_
      rw [hab, hs]

/-- The parameters are the only names of the scope of a body at its beginning. -/
theorem complete_introduceAll (parameters : List Token) (scope : Scope) (S : Scopes) :
    ∃ scope', (Scopes.introduceAll (scope :: S) parameters).1 = scope' :: S ∧
      ∀ name, scope'.get? name = some .complete →
        name ∈ parameters.map Token.lexeme ∨ scope.get? name = some .complete := by
  induction parameters generalizing scope with
  | nil => exact ⟨scope, rfl, fun _ h => Or.inr h⟩
  | cons p ps ih =>
      obtain ⟨scope', h, complete⟩ :=
        ih ((if scope.has p.lexeme then scope else scope.set p.lexeme .begun).set p.lexeme
          .complete)
      refine ⟨scope', h, fun name hn => ?_⟩
      rw [List.map_cons, List.mem_cons]
      by_cases hp : name = p.lexeme
      · exact Or.inl (Or.inl hp)
      · refine (complete name hn).imp Or.inr fun hc => ?_
        rw [Table.get?_set_of_ne _ _ hp] at hc
        by_cases has : scope.has p.lexeme
        · simpa [has] using hc
        · simpa [has, Table.get?_set_of_ne _ _ hp] using hc

theorem Sim.enter (closed : R.Closed) (hx : R.Executes execute₁ execute₂) {f₁ f₂ : Function}
    (f : R.FunctionMatch w f₁ f₂) (arguments : List Value)
    (arity : arguments.length = f₁.declaration.parameters.length) :
    R.Sim w (enter execute₁ f₁ arguments) (enter execute₂ f₂ arguments) fun _ a b => a = b := by
  obtain ⟨l, chain, d⟩ := f.declaration
  obtain ⟨π, hπ, parameters, body⟩ := (closed.decl d).body
  rw [Run.enter, Run.enter, f.closure, f.isInitializer]
  refine Sim.bind (Sim.newEnvironment f₁.closure hπ) fun w' a b le h => ?_
  obtain ⟨rfl, rfl, rfl⟩ := h
  have renamed : (f₂.declaration.parameters.map Token.lexeme).zip arguments =
      ((f₁.declaration.parameters.map Token.lexeme).zip arguments).map
        fun p => ((w.grow f₁.closure π).names w.forest.next p.1, p.2) := by
    rw [parameters, World.names_grow]
    have twice := List.map_map (f := Token.lexeme) (g := π) (l := f₁.declaration.parameters)
    rw [Function.comp_def] at twice
    rw [← twice, List.zip_map_left]
    rfl
  refine Sim.bind (Sim.defineAll w.forest.next renamed) fun w' _ _ le' h => ?_
  subst h
  refine Sim.bind (P := fun _ a b => a = b)
    (Sim.within w.forest.next (Sim.sequence hx body ?_)) fun w' flow _ le'' h => ?_
  · -- the new environment holds the parameters, which are all names of its scope
    obtain ⟨scope, hscope, complete⟩ :=
      complete_introduceAll f₁.declaration.parameters [] l.scopes
    have grown := (World.chain_enter _ w.forest.next _ _ _).2 (World.Chain.mono le' (chain.grow π))
    rw [World.At, Layout.inside, hscope]
    refine World.Chain.of_complete grown fun name hn => Or.inr ?_
    refine Forest.isSome_own?_defineAll_of_mem _ (by simp [World.grow, Forest.grow, Forest.next]) ?_
    rw [List.map_fst_zip (by simp [arity])]
    simpa using complete name hn
  · subst h
    cases f₁.isInitializer with
    | true =>
        refine Sim.get fun m₁ m₂ matched => Sim.pure ?_
        rw [matched.getAt? f₁.closure 0 fun e => closed.receiver (matched.sound.admits e)]
    | false =>
        cases flow with
        | normal => exact Sim.pure rfl
        | returned value => exact Sim.pure rfl

inductive CallableMatch (R : Correspondence) (w : World) : Callable → Callable → Prop
  | native : CallableMatch R w .native .native
  | function {f₁ f₂ : Function} : R.FunctionMatch w f₁ f₂ →
      CallableMatch R w (.function f₁) (.function f₂)
  | class (id : ClassId) {o₁ o₂ : Option Function} : Option.Rel (R.MethodMatch w) o₁ o₂ →
      CallableMatch R w (.class id o₁) (.class id o₂)

theorem DeclMatch.arity {l : Layout} {d₁ d₂ : FunctionDecl} (d : R.DeclMatch l d₁ d₂) :
    d₂.parameters.length = d₁.parameters.length := by
  obtain ⟨π, -, parameters, -⟩ := d.body
  simpa using congrArg List.length parameters

theorem CallableMatch.arity (closed : R.Closed) {c₁ c₂ : Callable} (c : R.CallableMatch w c₁ c₂) :
    c₂.arity = c₁.arity := by
  cases c with
  | native => rfl
  | function f =>
      obtain ⟨l, -, d⟩ := f.declaration
      exact (closed.decl d).arity
  | «class» id hm =>
      cases hm with
      | none => rfl
      | some f =>
          obtain ⟨l, -, d⟩ := f.declaration
          exact (closed.decl d).arity

theorem Matched.callable? {m₁ m₂ : Machine} (h : R.Matched w m₁ m₂) (v : Value) :
    Option.Rel (R.CallableMatch w) (m₁.heap.callable? v) (m₂.heap.callable? v) := by
  cases v with
  | native id => exact .some .native
  | function id =>
      have hf := h.functions.getElem?_rel id.index
      rw [Heap.callable?, Heap.callable?, ← Array.getElem?_toList, ← Array.getElem?_toList]
      generalize m₁.heap.functions.toList[id.index]? = o₁ at hf ⊢
      generalize m₂.heap.functions.toList[id.index]? = o₂ at hf ⊢
      cases hf with
      | none => exact .none
      | some f => exact .some (.function f)
  | «class» id => exact .some (.class id (h.method? id initializerName))
  | _ => exact .none

theorem Sim.invoke (closed : R.Closed) (hx : R.Executes execute₁ execute₂) {c₁ c₂ : Callable}
    (c : R.CallableMatch w c₁ c₂) (arguments : List Value) (arity : arguments.length = c₁.arity) :
    R.Sim w (invoke execute₁ c₁ arguments) (invoke execute₂ c₂ arguments) fun _ a b => a = b := by
  cases c with
  | native => exact Sim.bind Sim.readClock fun _ _ _ _ h => Sim.pure (congrArg Value.number h)
  | function f => exact Sim.enter closed hx f arguments arity
  | «class» id hm =>
      cases hm with
      | none =>
          exact Sim.bind (Sim.newObject id) fun _ _ _ _ h => Sim.pure (congrArg Value.object h.2)
      | @some f₁ f₂ f =>
          refine Sim.bind (Sim.newObject id) fun w' o _ le h => ?_
          obtain ⟨rfl, rfl⟩ := h
          refine Sim.bind (Sim.bindMethod closed f o) fun w' g₁ g₂ le' g => ?_
          refine Sim.bind (Sim.enter closed hx g.1 arguments ?_) fun _ _ _ _ _ => Sim.pure rfl
          rw [g.2]
          exact arity

theorem Sim.callValue (closed : R.Closed) (hx : R.Executes execute₁ execute₂) (callee : Value)
    {p₁ p₂ : Token} (paren : R.culprit p₁ p₂) (arguments : List Value) :
    R.Sim w (callValue execute₁ callee p₁ arguments) (callValue execute₂ callee p₂ arguments)
      fun _ a b => a = b := by
  refine Sim.get fun m₁ m₂ matched => ?_
  have hc := matched.callable? callee
  generalize m₁.heap.callable? callee = o₁ at hc ⊢
  generalize m₂.heap.callable? callee = o₂ at hc ⊢
  cases hc with
  | none => exact Sim.raise .notCallable paren
  | @some c₁ c₂ c =>
      simp only [c.arity closed]
      by_cases arity : arguments.length = c₁.arity
      · simp only [arity, if_true]
        exact Sim.invoke closed hx c arguments arity
      · simp only [arity, if_false]
        exact Sim.raise _ paren

end Correspondence

end Lox
