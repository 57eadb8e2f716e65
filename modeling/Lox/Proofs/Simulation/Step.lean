import Mathlib.Data.List.Forall2
import Lox.Bind
import Lox.Proofs.Simulation.Correspondence

/-!
# Small steps side by side

The small steps of a machine, taken by two matched machines at a time.  Each keeps the machines
matched in a world that it changes in a known way: most leave it as it is, a definition and a new
environment make it a later one.  `Sim.bind` puts steps together.
-/

namespace List.Forall₂

theorem getElem?_rel {r : α → β → Prop} {xs : List α} {ys : List β}
    (h : List.Forall₂ r xs ys) (i : Nat) : Option.Rel r xs[i]? ys[i]? := by
  induction h generalizing i with
  | nil => exact .none
  | cons h _ ih =>
      cases i with
      | zero => exact .some h
      | succ i => exact ih i

theorem append_singleton {r : α → β → Prop} {xs : List α} {ys : List β} {a : α} {b : β}
    (h : List.Forall₂ r xs ys) (hab : r a b) : List.Forall₂ r (xs ++ [a]) (ys ++ [b]) := by
  induction h with
  | nil => exact .cons hab .nil
  | cons h _ ih => exact .cons h ih

end List.Forall₂

namespace Lox

namespace Correspondence

open Run

variable {R : Correspondence} {w : World}

theorem FunctionMatch.mono {w' : World} (h : w ≤ w') {f₁ f₂ : Function}
    (f : R.FunctionMatch w f₁ f₂) : R.FunctionMatch w' f₁ f₂ := by
  obtain ⟨l, chain, d⟩ := f.declaration
  exact ⟨f.closure, f.isInitializer, l, World.Chain.mono h chain, d⟩

theorem MethodMatch.mono {w' : World} (h : w ≤ w') {f₁ f₂ : Function}
    (f : R.MethodMatch w f₁ f₂) : R.MethodMatch w' f₁ f₂ := by
  obtain ⟨l, chain, d⟩ := f.declaration
  exact ⟨f.closure, f.isInitializer, l, World.Chain.mono h chain, d⟩

theorem ClassMatch.mono {w' : World} (h : w ≤ w') {c₁ c₂ : Class} (c : R.ClassMatch w c₁ c₂) :
    R.ClassMatch w' c₁ c₂ :=
  ⟨c.name, c.superclass, c.methods.imp fun _ _ m => ⟨m.1, m.2.mono h⟩⟩

/-! ### Sound worlds -/

theorem Sound.define (h : R.Sound w) (id : EnvironmentId) (name : String) (value : Value) :
    R.Sound (w.define id name value) where
  root := by simpa [World.define] using h.root
  globals := h.globals
  made := by simpa [World.define] using h.made
  admits := h.admits

theorem Sound.defineAll (h : R.Sound w) (id : EnvironmentId) (entries : List (String × Value)) :
    R.Sound (w.defineAll id entries) where
  root := by simpa [World.defineAll] using h.root
  globals := h.globals
  made := by simpa [World.defineAll] using h.made
  admits := h.admits

theorem Sound.grow (h : R.Sound w) (enclosing : EnvironmentId) {π : Renaming} (hπ : R.admits π) :
    R.Sound (w.grow enclosing π) where
  root := by
    rw [World.grow, Forest.enclosing?, Forest.environment?_grow_of_lt _ _ h.made]
    exact h.root
  globals := by
    rw [(World.le_grow w enclosing π).globals, (World.le_grow w enclosing π).names _ h.made]
    exact h.globals
  made := Nat.lt_of_lt_of_le h.made (World.le_grow w enclosing π).size
  admits id := by
    by_cases hid : id = w.forest.next
    · simpa [World.grow, hid] using hπ
    · simpa [World.grow, hid] using h.admits id

theorem Sound.enter (h : R.Sound w) (id : EnvironmentId) : R.Sound (w.enter id) :=
  ⟨h.root, h.globals, h.made, h.admits⟩

/-! ### Matched machines -/

theorem Matched.withForest {w' : World} {m₁ m₂ : Machine} (h : R.Matched w m₁ m₂) (le : w ≤ w')
    (sound : R.Sound w') :
    R.Matched w' { m₁ with heap := { m₁.heap with forest := w'.forest } }
      { m₂ with heap := { m₂.heap with forest := w'.forest.rename w'.names } } where
  sound := sound
  forest₁ := rfl
  forest₂ := rfl
  functions := h.functions.imp fun _ _ f => f.mono le
  classes := h.classes.imp fun _ _ c => c.mono le
  objects := h.objects
  natives := h.natives
  globals₁ := h.globals₁.trans le.globals.symm
  globals₂ := h.globals₂.trans le.globals.symm
  current₁ := h.current₁.trans le.current.symm
  current₂ := h.current₂.trans le.current.symm
  distances₁ := h.distances₁
  distances₂ := h.distances₂
  sink := h.sink
  clock := h.clock
  readings := h.readings

theorem Matched.enter {m₁ m₂ : Machine} (h : R.Matched w m₁ m₂) (id : EnvironmentId) :
    R.Matched (w.enter id) { m₁ with current := id } { m₂ with current := id } :=
  { h with
    sound := h.sound.enter id
    functions := h.functions.imp fun _ _ f =>
      let ⟨l, chain, d⟩ := f.declaration
      ⟨f.closure, f.isInitializer, l, (World.chain_enter w id _ _ _).2 chain, d⟩
    classes := h.classes.imp fun _ _ c =>
      ⟨c.name, c.superclass, c.methods.imp fun _ _ p =>
        let ⟨l, chain, d⟩ := p.2.declaration
        ⟨p.1, p.2.closure, p.2.isInitializer, l, (World.chain_enter w id _ _ _).2 chain, d⟩⟩
    current₁ := rfl
    current₂ := rfl }

theorem Matched.functionName {m₁ m₂ : Machine} (closed : R.Closed) (h : R.Matched w m₁ m₂)
    (id : FunctionId) : m₂.heap.functionName id = m₁.heap.functionName id := by
  have hf := h.functions.getElem?_rel id.index
  rw [Heap.functionName, Heap.functionName, ← Array.getElem?_toList, ← Array.getElem?_toList]
  generalize m₁.heap.functions.toList[id.index]? = o₁ at hf ⊢
  generalize m₂.heap.functions.toList[id.index]? = o₂ at hf ⊢
  cases hf with
  | none => rfl
  | some f =>
      obtain ⟨l, -, d⟩ := f.declaration
      simpa using (closed.decl d).name

theorem Matched.className {m₁ m₂ : Machine} (h : R.Matched w m₁ m₂) (id : ClassId) :
    m₂.heap.className id = m₁.heap.className id := by
  have hc := h.classes.getElem?_rel id.index
  rw [Heap.className, Heap.className, ← Array.getElem?_toList, ← Array.getElem?_toList]
  generalize m₁.heap.classes.toList[id.index]? = o₁ at hc ⊢
  generalize m₂.heap.classes.toList[id.index]? = o₂ at hc ⊢
  cases hc with
  | none => rfl
  | some c => simpa using c.name

theorem Matched.pieces {m₁ m₂ : Machine} (closed : R.Closed) (h : R.Matched w m₁ m₂)
    (v : Value) : m₂.heap.pieces v = m₁.heap.pieces v := by
  have hobject (id : ObjectId) : m₂.heap.objectClassName id = m₁.heap.objectClassName id := by
    rw [Heap.objectClassName, Heap.objectClassName, h.objects]
    simp only [h.className]
  cases v with
  | bool b => cases b <;> rfl
  | native id => rw [Heap.pieces, Heap.pieces, h.natives]
  | function id => rw [Heap.pieces, Heap.pieces, h.functionName closed]
  | «class» id => rw [Heap.pieces, Heap.pieces, h.className]
  | object id => rw [Heap.pieces, Heap.pieces, hobject]
  | _ => rfl

theorem Matched.method? {m₁ m₂ : Machine} (h : R.Matched w m₁ m₂) (id : ClassId) (name : String) :
    Option.Rel (R.MethodMatch w) (m₁.heap.method? id name) (m₂.heap.method? id name) := by
  have table {t₁ t₂ : Table Function}
      (ht : List.Forall₂ (fun p q => q.1 = p.1 ∧ R.MethodMatch w p.2 q.2) t₁ t₂) :
      Option.Rel (R.MethodMatch w) (t₁.get? name) (t₂.get? name) := by
    induction ht with
    | nil => exact .none
    | @cons p q _ _ hpq _ ih =>
        obtain ⟨key, f₁⟩ := p
        obtain ⟨key', f₂⟩ := q
        obtain ⟨rfl, hf⟩ := hpq
        by_cases hk : key' = name
        · simpa [Table.get?, hk] using Option.Rel.some hf
        · simpa [Table.get?, hk] using ih
  have within (bound : Nat) (id : ClassId) : Option.Rel (R.MethodMatch w)
      (m₁.heap.methodWithin? bound id name) (m₂.heap.methodWithin? bound id name) := by
    induction bound generalizing id with
    | zero => exact .none
    | succ bound ih =>
        have hc := h.classes.getElem?_rel id.index
        rw [Heap.methodWithin?, Heap.methodWithin?, ← Array.getElem?_toList,
          ← Array.getElem?_toList]
        generalize m₁.heap.classes.toList[id.index]? = o₁ at hc ⊢
        generalize m₂.heap.classes.toList[id.index]? = o₂ at hc ⊢
        cases hc with
        | none => exact .none
        | @some c₁ c₂ c =>
            have hm := table c.methods
            simp only [Option.bind_some, c.superclass]
            generalize c₁.methods.get? name = o₁ at hm ⊢
            generalize c₂.methods.get? name = o₂ at hm ⊢
            cases hm with
            | none =>
                cases c₁.superclass with
                | none => exact .none
                | some above => exact ih above
            | some f => exact .some f
  exact within (id.index + 1) id

/-! ### Steps -/

theorem Outcome.trans {w' : World} {Q : World → α → β → Prop} {r s}
    (h : R.Outcome w' Q r s) (le : w ≤ w') : R.Outcome w Q r s := by
  cases h with
  | ok le' matched q => exact .ok (World.le_trans le le') matched q
  | error le' matched hh => exact .error (World.le_trans le le') matched hh

theorem Outcome.imp {P Q : World → α → β → Prop} {r s} (h : R.Outcome w P r s)
    (hPQ : ∀ w' a b, w ≤ w' → P w' a b → Q w' a b) : R.Outcome w Q r s := by
  cases h with
  | ok le matched p => exact .ok le matched (hPQ _ _ _ le p)
  | error le matched hh => exact .error le matched hh

theorem Sim.imp {P Q : World → α → β → Prop} {x : Run α} {y : Run β} (h : R.Sim w x y P)
    (hPQ : ∀ w' a b, w ≤ w' → P w' a b → Q w' a b) : R.Sim w x y Q :=
  fun m₁ m₂ matched => (h m₁ m₂ matched).imp hPQ

theorem Sim.pure {Q : World → α → β → Prop} {a : α} {b : β} (h : Q w a b) :
    R.Sim w (pure a) (pure b) Q :=
  fun _ _ matched => .ok (World.le_refl w) matched h

theorem Sim.bind {P : World → α → β → Prop} {Q : World → γ → δ → Prop} {x : Run α} {y : Run β}
    {f : α → Run γ} {g : β → Run δ} (h : R.Sim w x y P)
    (k : ∀ w' a b, w ≤ w' → P w' a b → R.Sim w' (f a) (g b) Q) :
    R.Sim w (x >>= f) (y >>= g) Q := by
  intro m₁ m₂ matched
  have hxy := h m₁ m₂ matched
  generalize hx : x m₁ = r at hxy
  generalize hy : y m₂ = s at hxy
  cases hxy with
  | ok le matched' p =>
      rw [bind_of_ok hx, bind_of_ok hy]
      exact (k _ _ _ le p _ _ matched').trans le
  | error le matched' hh =>
      rw [bind_of_error hx, bind_of_error hy]
      exact .error le matched' hh

theorem Sim.raise {Q : World → α → β → Prop} (fault : RuntimeFault) {t₁ t₂ : Token}
    (h : R.culprit t₁ t₂) : R.Sim w (raise fault t₁) (raise fault t₂) Q :=
  fun _ _ matched => .error (World.le_refl w) matched (.error fault h)

theorem Sim.get {Q : World → α → β → Prop} {f : Machine → Run α} {g : Machine → Run β}
    (h : ∀ m₁ m₂, R.Matched w m₁ m₂ → R.Sim w (f m₁) (g m₂) Q) :
    R.Sim w (get >>= f) (get >>= g) Q :=
  fun m₁ m₂ matched => h m₁ m₂ matched m₁ m₂ matched

theorem Sim.modifyForest {w' : World} {f g : Forest → Forest} (le : w ≤ w')
    (sound : R.Sound w → R.Sound w') (hf : f w.forest = w'.forest)
    (hg : g (w.forest.rename w.names) = w'.forest.rename w'.names) :
    R.Sim w (modifyForest f) (modifyForest g) fun v _ _ => v = w' := by
  intro m₁ m₂ matched
  have matched' := matched.withForest le (sound matched.sound)
  rw [← hg, ← hf, ← matched.forest₂, ← matched.forest₁] at matched'
  exact .ok le matched' rfl

theorem Sim.newEnvironment (enclosing : EnvironmentId) {π : Renaming} (hπ : R.admits π) :
    R.Sim w (newEnvironment enclosing) (newEnvironment enclosing)
      fun w' a b => w' = w.grow enclosing π ∧ a = w.forest.next ∧ b = w.forest.next := by
  have le := World.le_grow w enclosing π
  refine Sim.get fun m₁ m₂ matched => ?_
  have next₁ : m₁.heap.forest.next = w.forest.next := by rw [matched.forest₁]
  have next₂ : m₂.heap.forest.next = w.forest.next := by rw [matched.forest₂, Forest.next_rename]
  refine Sim.bind (Sim.modifyForest le (fun h => h.grow enclosing hπ) rfl ?_)
    fun w' _ _ _ h => Sim.pure ⟨h, next₁, next₂⟩
  rw [World.grow, Forest.grow_rename]
  exact congrArg (Forest.grow · (some enclosing)) (Forest.rename_congr _ _ le.names).symm

theorem Sim.define (id : EnvironmentId) {name₁ name₂ : String} (value : Value)
    (h : name₂ = w.names id name₁) :
    R.Sim w (define id name₁ value) (define id name₂ value)
      fun w' _ _ => w' = w.define id name₁ value := by
  subst h
  exact Sim.modifyForest (World.le_define w id name₁ value) (fun h => h.define id name₁ value) rfl
    (Forest.define_rename w.forest w.names id name₁ value).symm

theorem Sim.defineHere {name₁ name₂ : String} (value : Value)
    (h : name₂ = w.names w.current name₁) :
    R.Sim w (defineHere name₁ value) (defineHere name₂ value)
      fun w' _ _ => w' = w.define w.current name₁ value := by
  refine Sim.get fun m₁ m₂ matched => ?_
  rw [matched.current₁, matched.current₂]
  exact Sim.define w.current value h

theorem Sim.defineAll (id : EnvironmentId) {entries₁ entries₂ : List (String × Value)}
    (h : entries₂ = entries₁.map fun p => (w.names id p.1, p.2)) :
    R.Sim w (Run.modifyForest (·.defineAll id entries₁))
      (Run.modifyForest (·.defineAll id entries₂)) fun w' _ _ => w' = w.defineAll id entries₁ := by
  subst h
  exact Sim.modifyForest (World.le_defineAll w id entries₁) (fun h => h.defineAll id entries₁) rfl
    (Forest.defineAll_rename w.forest w.names id entries₁).symm

/-- Runs inside an environment and back.  What holds in the world inside is lost outside. -/
theorem Sim.within {x : Run α} {y : Run α} (id : EnvironmentId)
    (h : R.Sim (w.enter id) x y fun _ a b => a = b) :
    R.Sim w (within id x) (within id y) fun _ a b => a = b := by
  intro m₁ m₂ matched
  have inside := h _ _ (matched.enter id)
  unfold Run.within
  simp only [matched.current₁, matched.current₂]
  generalize x { m₁ with current := id } = r at inside ⊢
  generalize y { m₂ with current := id } = s at inside ⊢
  cases inside with
  | ok le matched' hab =>
      exact .ok (World.le_enter_of_enter_le le) (matched'.enter w.current) hab
  | error le matched' hh =>
      exact .error (World.le_enter_of_enter_le le) (matched'.enter w.current) hh

theorem Sim.newFunction {f₁ f₂ : Function} (h : R.FunctionMatch w f₁ f₂) :
    R.Sim w (newFunction f₁) (newFunction f₂) fun _ a b => a = b := by
  intro m₁ m₂ matched
  have sizes : m₁.heap.functions.size = m₂.heap.functions.size := matched.functions.length_eq
  refine .ok (World.le_refl w) { matched with functions := ?_ } (congrArg FunctionId.mk sizes)
  simpa using matched.functions.append_singleton h

theorem Sim.newClass {c₁ c₂ : Class} (h : R.ClassMatch w c₁ c₂) :
    R.Sim w (newClass c₁) (newClass c₂) fun w' a b => w' = w ∧ a = b := by
  intro m₁ m₂ matched
  have sizes : m₁.heap.classes.size = m₂.heap.classes.size := matched.classes.length_eq
  refine .ok (World.le_refl w) { matched with classes := ?_ } ⟨rfl, congrArg ClassId.mk sizes⟩
  simpa using matched.classes.append_singleton h

theorem Sim.newObject (id : ClassId) :
    R.Sim w (newObject id) (newObject id) fun w' a b => w' = w ∧ a = b := by
  intro m₁ m₂ matched
  have objects := matched.objects
  refine .ok (World.le_refl w) { matched with objects := ?_ } ⟨rfl, ?_⟩
  · simp [objects]
  · simp [objects]

theorem Sim.setField (id : ObjectId) (name : String) (value : Value) :
    R.Sim w (setField id name value) (setField id name value) fun _ _ _ => True := by
  intro m₁ m₂ matched
  refine .ok (World.le_refl w) { matched with objects := ?_ } trivial
  dsimp only
  rw [matched.objects]

theorem Sim.readClock : R.Sim w readClock readClock fun _ a b => a = b := by
  intro m₁ m₂ matched
  refine .ok (World.le_refl w) { matched with readings := congrArg (· + 1) matched.readings } ?_
  rw [matched.clock, matched.readings]

theorem Sim.write (piece : String) : R.Sim w (write piece) (write piece) fun _ _ _ => True := by
  refine Sim.get fun m₁ m₂ matched => ?_
  have accepts : m₂.sink.accepts piece = m₁.sink.accepts piece := by rw [matched.sink]; rfl
  rw [accepts]
  by_cases h : m₁.sink.accepts piece
  · simp only [h, if_true]
    intro m₁ m₂ matched
    refine .ok (World.le_refl w) { matched with sink := ?_ } trivial
    dsimp only
    rw [matched.sink]
    simp only [Sink.append, String.append_assoc]
  · simp only [h]
    exact fun _ _ matched => .error (World.le_refl w) matched (.output .closed)

theorem Sim.writeAll (pieces : List String) :
    R.Sim w (writeAll pieces) (writeAll pieces) fun _ _ _ => True := by
  induction pieces generalizing w with
  | nil => exact Sim.pure trivial
  | cons piece pieces ih => exact Sim.bind (Sim.write piece) fun _ _ _ _ _ => ih

theorem Sim.flush : R.Sim w flush flush fun _ _ _ => True := by
  refine Sim.get fun m₁ m₂ matched => ?_
  have flushable : m₂.sink.flushable = m₁.sink.flushable := by rw [matched.sink]
  rw [flushable]
  cases m₁.sink.flushable with
  | true => exact Sim.pure trivial
  | false => exact fun _ _ matched => .error (World.le_refl w) matched (.output .flushFailed)

end Correspondence

end Lox
