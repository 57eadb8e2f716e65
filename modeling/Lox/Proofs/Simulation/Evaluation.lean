import Lox.Proofs.Simulation.Call

/-!
# Evaluation side by side

Corresponding expressions and statements are evaluated and executed alike.  `Sim.expression` and
`Sim.statement` say so of one step, given that it holds of what is inside, by cases on how the
phrases are built; `simulates` ties the knot by induction on the fuel.

Both runs may be watched.  What the watchers do must correspond, and they are asked at corresponding
nodes in worlds that are as the layout of the node tells.
-/

namespace Lox

namespace Correspondence

open Run

variable {R : Correspondence} {w : World}

/-! ### Operators -/

theorem Sim.ofExcept {x y : Except RuntimeError α}
    (h : (∃ a, x = .ok a ∧ y = .ok a) ∨
      ∃ fault t₁ t₂, R.culprit t₁ t₂ ∧ x = .error ⟨fault, t₁⟩ ∧ y = .error ⟨fault, t₂⟩) :
    R.Sim w (ofExcept x) (ofExcept y) fun _ a b => a = b := by
  rcases h with ⟨a, rfl, rfl⟩ | ⟨fault, t₁, t₂, same, rfl, rfl⟩
  · exact Sim.pure rfl
  · exact Sim.raise fault same

theorem Sim.unary {o₁ o₂ : Token} (operator : R.Word o₁ o₂) (v : Value) :
    R.Sim w (Run.ofExcept (Value.unary o₁ v)) (Run.ofExcept (Value.unary o₂ v))
      fun _ a b => a = b := by
  refine Sim.ofExcept ?_
  unfold Value.unary
  rw [operator.kind]
  split
  · cases v with
    | number x => exact Or.inl ⟨_, rfl, rfl⟩
    | _ => exact Or.inr ⟨_, o₁, o₂, operator.culprit, rfl, rfl⟩
  · exact Or.inl ⟨_, rfl, rfl⟩
  · exact Or.inr ⟨_, o₁, o₂, operator.culprit, rfl, rfl⟩

theorem Sim.arithmetic {o₁ o₂ : Token} (operator : R.Word o₁ o₂) (x y : Float) :
    R.Sim w (Run.ofExcept (Value.arithmetic o₁ x y)) (Run.ofExcept (Value.arithmetic o₂ x y))
      fun _ a b => a = b := by
  refine Sim.ofExcept ?_
  unfold Value.arithmetic
  rw [operator.kind]
  split
  · exact Or.inl ⟨_, rfl, rfl⟩
  · exact Or.inl ⟨_, rfl, rfl⟩
  · exact Or.inl ⟨_, rfl, rfl⟩
  · exact Or.inl ⟨_, rfl, rfl⟩
  · exact Or.inl ⟨_, rfl, rfl⟩
  · exact Or.inl ⟨_, rfl, rfl⟩
  · exact Or.inl ⟨_, rfl, rfl⟩
  · exact Or.inr ⟨_, o₁, o₂, operator.culprit, rfl, rfl⟩

theorem Sim.binary {o₁ o₂ : Token} (operator : R.Word o₁ o₂) (u v : Value) :
    R.Sim w (Run.ofExcept (Value.binary o₁ u v)) (Run.ofExcept (Value.binary o₂ u v))
      fun _ a b => a = b := by
  unfold Value.binary
  rw [operator.kind]
  split
  · exact Sim.pure rfl
  · exact Sim.pure rfl
  · split
    · exact Sim.pure rfl
    · exact Sim.pure rfl
    · exact Sim.raise .operandsNotAddable operator.culprit
  · split
    · exact Sim.arithmetic operator _ _
    · exact Sim.raise .operandsNotNumbers operator.culprit

theorem Word.decides {o₁ o₂ : Token} (operator : R.Word o₁ o₂) (v : Value) :
    Value.decides o₂ v = Value.decides o₁ v := by
  rw [Value.decides, Value.decides, operator.kind]

/-! ### Declarations -/

variable {evaluate₁ evaluate₂ : Expr → Run Value} {execute₁ execute₂ : Stmt → Run Flow}

/-- A name gets its value, and is declared from then on. -/
theorem Sim.introduce {l : Layout} (place : w.At l) {n₁ n₂ : Token} (value : Value)
    (name : n₂.lexeme = l.here n₁.lexeme) :
    R.Sim w (Run.defineHere n₁.lexeme value) (Run.defineHere n₂.lexeme value) fun w' _ _ =>
      (w'.forest.own? w'.current n₁.lexeme).isSome ∧ w'.At (l.introduce n₁) := by
  intro m₁ m₂ matched
  have sound := matched.sound
  have here : n₂.lexeme = w.names w.current n₁.lexeme := by
    rw [place.here sound.globals]
    exact name
  refine (Sim.defineHere value here m₁ m₂ matched).imp fun w' _ _ _ h => ?_
  subst h
  have made := w.forest.isSome_environment? (place.made sound.made)
  refine ⟨?_, place.define sound.made n₁ value⟩
  rw [World.define, w.forest.own?_define_self w.current n₁.lexeme value made]
  rfl

/-- A function is closed over the environment that it is then declared in.  Only afterwards the
environment is as the layout of its body tells. -/
theorem Sim.declareFunction {l : Layout} (place : w.At l) {d₁ d₂ : FunctionDecl}
    (closed : R.Closed) (name : l.here d₁.name.lexeme = d₁.name.lexeme)
    (declaration : R.decl (l.introduce d₁.name) d₁ d₂) :
    R.Sim w (Stmt.step evaluate₁ execute₁ (.function d₁))
      (Stmt.step evaluate₂ execute₂ (.function d₂))
      fun w' a b => a = b ∧ (a = .normal → w'.At (l.introduce d₁.name)) := by
  intro m₁ m₂ matched
  have sizes : m₁.heap.functions.size = m₂.heap.functions.size := matched.functions.length_eq
  let value : Value := .function ⟨m₁.heap.functions.size⟩
  have here : d₂.name.lexeme = w.names w.current d₁.name.lexeme := by
    rw [(closed.decl declaration).name, place.here matched.sound.globals, name]
  have le := w.le_define w.current d₁.name.lexeme value
  have after := place.define matched.sound.made d₁.name value
  have function : R.FunctionMatch (w.define w.current d₁.name.lexeme value)
      ⟨d₁, m₁.current, false⟩ ⟨d₂, m₂.current, false⟩ := by
    rw [matched.current₁, matched.current₂]
    exact ⟨rfl, rfl, l.introduce d₁.name, after, declaration⟩
  have defined := matched.withForest le (matched.sound.define w.current d₁.name.lexeme value)
  have functions := defined.functions.append_singleton function
  have matched' : R.Matched (w.define w.current d₁.name.lexeme value)
      { m₁ with heap := { m₁.heap with
          functions := m₁.heap.functions.push ⟨d₁, m₁.current, false⟩
          forest := m₁.heap.forest.define m₁.current d₁.name.lexeme value } }
      { m₂ with heap := { m₂.heap with
          functions := m₂.heap.functions.push ⟨d₂, m₂.current, false⟩
          forest := m₂.heap.forest.define m₂.current d₂.name.lexeme
            (.function ⟨m₂.heap.functions.size⟩) } } :=
    { defined with
      forest₁ := by
        rw [matched.forest₁, matched.current₁]
        rfl
      forest₂ := by
        rw [matched.forest₂, matched.current₂, here, ← sizes]
        exact (Forest.define_rename w.forest w.names w.current d₁.name.lexeme value).symm
      functions := by simpa using functions }
  exact .ok le matched' ⟨rfl, fun _ => after⟩

/-! ### Classes -/

theorem Sim.superclass (he : R.Evaluates evaluate₁ evaluate₂) (closed : R.Closed) {l : Layout}
    (place : w.At l) {n₁ n₂ : Token} (name : R.culprit n₁ n₂) {e₁ e₂ : Expr}
    (clause : R.expr l e₁ e₂) :
    R.Sim w (superclass evaluate₁ n₁ e₁) (superclass evaluate₂ n₂ e₂) fun _ a b => a = b := by
  refine Sim.bind (he clause place) fun w' a b _ hab => ?_
  subst hab
  cases a with
  | «class» id => exact Sim.pure rfl
  | _ =>
      cases closed.expr clause with
      | «variable» reference => exact Sim.raise .superclassNotClass reference.culprit
      | _ => exact Sim.raise .superclassNotClass name

def Layout.aboveMethods (l : Layout) (name : Token) : Option ClassId → Layout
  | none => l.introduce name
  | some _ => (l.introduce name).push (Scope.holding superName) 1

theorem Sim.methodEnvironment (closed : R.Closed) {l : Layout} {n : Token}
    (place : w.At (l.introduce n)) (superclass : Option ClassId) :
    R.Sim w (methodEnvironment superclass) (methodEnvironment superclass) fun w' a b => a = b ∧
      w'.Chain (Layout.aboveMethods l n superclass).scopes
        (Layout.aboveMethods l n superclass).renamings a := by
  refine Sim.get fun m₁ m₂ matched => ?_
  rw [matched.current₁, matched.current₂]
  cases superclass with
  | none => exact Sim.pure ⟨rfl, place⟩
  | some id =>
      refine Sim.bind (Sim.newEnvironment w.current closed.one) fun w' a b _ h => ?_
      obtain ⟨rfl, rfl, rfl⟩ := h
      have fixed : (w.grow w.current 1).names w.forest.next superName = superName := by
        simp
      refine Sim.bind (Sim.define w.forest.next (.class id) fixed.symm) fun w'' _ _ _ h => ?_
      subst h
      exact Sim.pure ⟨rfl, World.Chain.holding place superName (.class id)⟩

theorem set_match {r : α → β → Prop} {t₁ : Table α} {t₂ : Table β} {a : α} {b : β} (name : String)
    (h : List.Forall₂ (fun p q => q.1 = p.1 ∧ r p.2 q.2) t₁ t₂) (hab : r a b) :
    List.Forall₂ (fun p q => q.1 = p.1 ∧ r p.2 q.2) (t₁.set name a) (t₂.set name b) := by
  induction h with
  | nil => exact .cons ⟨rfl, hab⟩ .nil
  | @cons p q _ _ hpq ht ih =>
      obtain ⟨key, x⟩ := p
      obtain ⟨key', y⟩ := q
      obtain ⟨rfl, hxy⟩ := hpq
      by_cases hk : key' = name
      · simpa [Table.set, hk] using ⟨hab, ht⟩
      · simpa [Table.set, hk] using ⟨hxy, ih⟩

/-- Methods that are declared alike make tables that stand for each other. -/
theorem methodTable_match (closed : R.Closed) {l : Layout} {closure : EnvironmentId}
    (chain : w.Chain l.scopes l.renamings closure) {ds₁ ds₂ : List FunctionDecl}
    (h : List.Forall₂ (R.decl (l.push (Scope.holding receiverName) 1)) ds₁ ds₂) :
    List.Forall₂ (fun p q => q.1 = p.1 ∧ R.MethodMatch w p.2 q.2)
      (methodTable closure ds₁) (methodTable closure ds₂) := by
  suffices onto : ∀ t₁ t₂ : Table Function,
      List.Forall₂ (fun p q => q.1 = p.1 ∧ R.MethodMatch w p.2 q.2) t₁ t₂ →
      List.Forall₂ (fun p q => q.1 = p.1 ∧ R.MethodMatch w p.2 q.2)
        (ds₁.foldl (fun table d => Table.set table d.name.lexeme
          ⟨d, closure, d.name.lexeme == initializerName⟩) t₁)
        (ds₂.foldl (fun table d => Table.set table d.name.lexeme
          ⟨d, closure, d.name.lexeme == initializerName⟩) t₂) from
    onto [] [] .nil
  induction h with
  | nil => exact fun _ _ ht => ht
  | @cons d₁ d₂ _ _ hd _ ih =>
      intro t₁ t₂ ht
      have name := (closed.decl hd).name
      rw [List.foldl_cons, List.foldl_cons, name]
      exact ih _ _ (set_match d₁.name.lexeme ht ⟨rfl, rfl, l, chain, hd⟩)

theorem Sim.declareClass (closed : R.Closed) {l : Layout} (place : w.At l) {n₁ n₂ : Token}
    (name : n₂.lexeme = n₁.lexeme) (here : l.here n₁.lexeme = n₁.lexeme)
    (superclass : Option ClassId) {ds₁ ds₂ : List FunctionDecl}
    (methods : List.Forall₂
      (R.decl ((Layout.aboveMethods l n₁ superclass).push (Scope.holding receiverName) 1))
      ds₁ ds₂) :
    R.Sim w (declareClass n₁ superclass ds₁) (declareClass n₂ superclass ds₂)
      fun w' _ _ => w'.At (l.introduce n₁) := by
  have same : n₂.lexeme = l.here n₁.lexeme := name.trans here.symm
  refine Sim.bind (Sim.introduce place .nil same) fun w₁ _ _ _ h => ?_
  obtain ⟨held, place₁⟩ := h
  refine Sim.bind (Sim.methodEnvironment closed place₁ superclass) fun w₂ a b le₂ h => ?_
  obtain ⟨rfl, chain⟩ := h
  have class_ : R.ClassMatch w₂ ⟨n₁.lexeme, superclass, methodTable a ds₁⟩
      ⟨n₂.lexeme, superclass, methodTable a ds₂⟩ :=
    ⟨name, rfl, methodTable_match closed chain methods⟩
  refine Sim.bind (Sim.newClass class_) fun w₃ id _ _ h => ?_
  obtain ⟨rfl, rfl⟩ := h
  have place₂ : w₃.At (l.introduce n₁) := place₁.mono le₂
  refine Sim.get fun m₁ m₂ matched => ?_
  have held₂ : (w₃.forest.own? w₃.current n₁.lexeme).isSome := by
    rw [le₂.current]
    exact le₂.own _ _ held
  have names : n₂.lexeme = w₃.names w₃.current n₁.lexeme := by
    rw [place₂.here matched.sound.globals]
    exact same
  have holder₁ : m₁.heap.forest.holder? m₁.current n₁.lexeme = some w₃.current := by
    rw [matched.forest₁, matched.current₁]
    exact w₃.forest.holder?_of_own held₂
  have holder₂ : m₂.heap.forest.holder? m₂.current n₂.lexeme = some w₃.current := by
    rw [matched.forest₂, matched.current₂, names]
    refine Forest.holder?_of_own _ ?_
    rw [Forest.own?_rename]
    exact held₂
  simp only [holder₁, holder₂]
  refine (Sim.define w₃.current (.class id) names).imp fun w' _ _ le _ => place₂.mono le

/-! ### Steps -/

theorem Sim.expression (closed : R.Closed) (he : R.Evaluates evaluate₁ evaluate₂)
    (hx : R.Executes execute₁ execute₂) {l : Layout} {e₁ e₂ : Expr} (h : R.expr l e₁ e₂)
    (place : w.At l) :
    R.Sim w (e₁.step evaluate₁ execute₁) (e₂.step evaluate₂ execute₂) fun _ a b => a = b := by
  cases closed.expr h with
  | literal value => exact Sim.pure rfl
  | grouping inner => exact he inner place
  | unary operator right =>
      refine Sim.bind (he right place) fun w' v _ _ hv => ?_
      subst hv
      exact Sim.unary operator v
  | binary left operator right =>
      refine Sim.bind (he left place) fun w' u _ le hu => ?_
      subst hu
      refine Sim.bind (he right (place.mono le)) fun w'' v _ _ hv => ?_
      subst hv
      exact Sim.binary operator u v
  | logical left operator right =>
      refine Sim.bind (he left place) fun w' u _ le hu => ?_
      subst hu
      rw [operator.decides]
      split
      · exact Sim.pure rfl
      · exact he right (place.mono le)
  | «variable» name => exact Sim.lookUp place name
  | assign name value =>
      refine Sim.bind (he value place) fun w' v _ le hv => ?_
      subst hv
      exact Sim.bind (Sim.overwrite (place.mono le) name v) fun _ _ _ _ _ => Sim.pure rfl
  | call callee paren arguments =>
      refine Sim.bind (he callee place) fun w' c _ le hc => ?_
      subst hc
      refine Sim.bind (Sim.evaluateAll he arguments (place.mono le)) fun w'' vs _ _ hvs => ?_
      subst hvs
      exact Sim.callValue closed hx c paren vs
  | get object name =>
      refine Sim.bind (he object place) fun w' v _ _ hv => ?_
      subst hv
      cases v with
      | object id => exact Sim.property closed id name
      | _ => exact Sim.raise .propertyOfNonObject name.culprit
  | set object name value =>
      refine Sim.bind (he object place) fun w' v _ le hv => ?_
      subst hv
      cases v with
      | object id =>
          refine Sim.bind (he value (place.mono le)) fun w'' v _ _ hv => ?_
          subst hv
          rw [name.lexeme]
          exact Sim.bind (Sim.setField id _ v) fun _ _ _ _ _ => Sim.pure rfl
      | _ => exact Sim.raise .fieldOfNonObject name.culprit
  | this keyword => exact Sim.lookUp place keyword
  | super distance keyword method => exact Sim.superMethod closed distance keyword method

theorem Sim.statement (closed : R.Closed) (he : R.Evaluates evaluate₁ evaluate₂)
    (hx : R.Executes execute₁ execute₂) {l after : Layout} {s₁ s₂ : Stmt}
    (h : R.stmt l after s₁ s₂) (place : w.At l) :
    R.Sim w (s₁.step evaluate₁ execute₁) (s₂.step evaluate₂ execute₂)
      fun w' a b => a = b ∧ (a = .normal → w'.At after) := by
  cases closed.stmt h with
  | expression value =>
      exact Sim.bind (he value place) fun w' _ _ le _ => Sim.pure ⟨rfl, fun _ => place.mono le⟩
  | print value =>
      refine Sim.bind (he value place) fun w' v _ le hv => ?_
      subst hv
      refine Sim.get fun m₁ m₂ matched => ?_
      rw [matched.pieces closed v]
      refine Sim.bind (Sim.writeAll _) fun w'' _ _ le' _ => Sim.pure ⟨rfl, fun _ => ?_⟩
      exact (place.mono le).mono le'
  | var name =>
      exact Sim.bind (Sim.introduce place .nil name) fun _ _ _ _ h => Sim.pure ⟨rfl, fun _ => h.2⟩
  | @initialized n₁ n₂ _ _ name value =>
      refine Sim.bind (he value (place.declare n₁.lexeme)) fun w' v _ le hv => ?_
      subst hv
      exact Sim.bind (Sim.introduce (place.mono le) v name) fun _ _ _ _ h =>
        Sim.pure ⟨rfl, fun _ => h.2⟩
  | @block π _ _ hπ body =>
      refine Sim.get fun m₁ m₂ matched => ?_
      rw [matched.current₁, matched.current₂]
      refine Sim.bind (Sim.newEnvironment w.current hπ) fun w' a b le h => ?_
      obtain ⟨rfl, rfl, rfl⟩ := h
      have inside : ((w.grow w.current π).enter w.forest.next).At (l.push [] π) :=
        (World.chain_enter _ _ _ _ _).2 (World.Chain.grow place π)
      refine (Sim.within w.forest.next (Sim.sequence hx body inside)).imp
        fun w'' _ _ le' hab => ⟨hab, fun _ => ?_⟩
      exact (place.mono le).mono le'
  | branch condition consequence =>
      refine Sim.bind (he condition place) fun w' v _ le hv => ?_
      subst hv
      split
      · exact (hx consequence (place.mono le)).imp fun w'' _ _ le' hab =>
          ⟨hab.1, fun _ => (place.mono le).mono le'⟩
      · exact Sim.pure ⟨rfl, fun _ => place.mono le⟩
  | alternative condition consequence alternative =>
      refine Sim.bind (he condition place) fun w' v _ le hv => ?_
      subst hv
      split
      · exact (hx consequence (place.mono le)).imp fun w'' _ _ le' hab =>
          ⟨hab.1, fun _ => (place.mono le).mono le'⟩
      · exact (hx alternative (place.mono le)).imp fun w'' _ _ le' hab =>
          ⟨hab.1, fun _ => (place.mono le).mono le'⟩
  | «while» condition body =>
      refine Sim.bind (he condition place) fun w' v _ le hv => ?_
      subst hv
      split
      · refine Sim.bind (hx body (place.mono le)) fun w'' flow _ le' hab => ?_
        obtain ⟨rfl, -⟩ := hab
        have place' := (place.mono le).mono le'
        cases flow with
        | normal => exact hx h place'
        | returned value => exact Sim.pure ⟨rfl, fun _ => place'⟩
      · exact Sim.pure ⟨rfl, fun _ => place.mono le⟩
  | function name declaration => exact Sim.declareFunction place closed name declaration
  | «return» => exact Sim.pure ⟨rfl, fun _ => place⟩
  | returnValue k₁ k₂ value =>
      refine Sim.bind (he value place) fun w' v _ le hv => Sim.pure ⟨?_, fun _ => place.mono le⟩
      rw [hv]
  | «class» name here methods =>
      exact Sim.bind (Sim.declareClass closed place name here none methods) fun _ _ _ _ h =>
        Sim.pure ⟨rfl, fun _ => h⟩
  | @subclass n₁ n₂ _ _ _ _ name here culprit clause methods =>
      refine Sim.bind (Sim.superclass he closed (place.declare n₁.lexeme) culprit clause)
        fun w' id _ le hid => ?_
      subst hid
      exact Sim.bind (Sim.declareClass closed (place.mono le) name here (some id) methods)
        fun _ _ _ _ h => Sim.pure ⟨rfl, fun _ => h⟩

/-! ### Runs -/

/-- Watchers that do alike at corresponding nodes. -/
structure Watches (R : Correspondence) (watch₁ watch₂ : Node → Run Unit) : Prop where
  expr : ∀ {w l e₁ e₂}, R.expr l e₁ e₂ → w.At l →
    R.Sim w (watch₁ (.expr e₁)) (watch₂ (.expr e₂)) fun _ _ _ => True
  stmt : ∀ {w l after s₁ s₂}, R.stmt l after s₁ s₂ → w.At l →
    R.Sim w (watch₁ (.stmt s₁)) (watch₂ (.stmt s₂)) fun _ _ _ => True

theorem Watches.unwatched : R.Watches Run.unwatched Run.unwatched :=
  ⟨fun _ _ => Sim.pure trivial, fun _ _ => Sim.pure trivial⟩

variable {watch₁ watch₂ : Node → Run Unit}

theorem simulates (closed : R.Closed) (watches : R.Watches watch₁ watch₂) (fuel : Nat) :
    R.Evaluates (evaluateWatched watch₁ fuel) (evaluateWatched watch₂ fuel) ∧
      R.Executes (executeWatched watch₁ fuel) (executeWatched watch₂ fuel) := by
  induction fuel with
  | zero =>
      exact ⟨fun _ _ _ _ matched => .error (World.le_refl _) matched .outOfFuel,
        fun _ _ _ _ matched => .error (World.le_refl _) matched .outOfFuel⟩
  | succ fuel ih =>
      obtain ⟨he, hx⟩ := ih
      refine ⟨fun {w l e₁ e₂} h place => ?_, fun {w l after s₁ s₂} h place => ?_⟩
      · exact Sim.bind (watches.expr h place) fun w' _ _ le _ =>
          Sim.expression closed he hx h (place.mono le)
      · exact Sim.bind (watches.stmt h place) fun w' _ _ le _ =>
          Sim.statement closed he hx h (place.mono le)

/-- The statements of a program are in no scope. -/
theorem StmtMatch.after_top {after : Layout} {s₁ s₂ : Stmt} (h : R.StmtMatch .top after s₁ s₂) :
    after = .top := by
  cases h <;> rfl

theorem Sim.executeAllWatched (closed : R.Closed) (watches : R.Watches watch₁ watch₂) (fuel : Nat)
    {ss₁ ss₂ : List Stmt} (h : R.Statements .top ss₁ ss₂) (place : w.At .top) :
    R.Sim w (executeAllWatched watch₁ fuel ss₁) (executeAllWatched watch₂ fuel ss₂)
      fun _ _ _ => True := by
  generalize hl : Layout.top = l at h
  induction h generalizing w with
  | nil => exact Sim.flush
  | cons head _ ih =>
      subst hl
      refine Sim.bind ((simulates closed watches fuel).2 head place) fun w' _ _ le _ => ?_
      exact ih (place.mono le) (closed.stmt head).after_top.symm

theorem Sim.executeAll (closed : R.Closed) (fuel : Nat) {ss₁ ss₂ : List Stmt}
    (h : R.Statements .top ss₁ ss₂) (place : w.At .top) :
    R.Sim w (Lox.executeAll fuel ss₁) (Lox.executeAll fuel ss₂) fun _ _ _ => True := by
  rw [← executeAllWatched_unwatched, ← executeAllWatched_unwatched]
  exact Sim.executeAllWatched closed .unwatched fuel h place

end Correspondence

end Lox
