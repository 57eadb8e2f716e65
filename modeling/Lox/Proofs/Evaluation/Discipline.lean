import Lox.Bind
import Lox.Proofs.Evaluation.Watched
import Lox.Proofs.Heap.Reachable

/-!
# What executions keep

A `Discipline` is a property of machines that executions keep.  It is given by *situations*,
machines together with what is known of them, by the order in which situations may follow each
other, and by the nodes that may start and the functions that may be called in a situation.
`Respected` lists what there is to show of the small steps of execution; that whole executions keep
the discipline follows from it once and for all.  `Tracked` is for disciplines that also follow the
values that the steps pass on to each other, and `Respected` is the case in which nothing has to be
known of them.

Two executions with different watchers are taken side by side.  They are the same unless the second
one raises an *alarm*.  So what is known to hold throughout an execution can be used to show that
something else holds throughout it (`Respected.throughout`).
-/

namespace Lox

/-- What is known of the value that a statement returns, if it returns one. -/
def Flow.Holds (P : Value → Prop) : Flow → Prop
  | .normal => True
  | .returned value => P value

/-- The nodes that are evaluated or executed for a node in the same environment. -/
def Node.parts : Node → List Node
  | .expr (.grouping inner) => [.expr inner]
  | .expr (.unary _ right) => [.expr right]
  | .expr (.binary left _ right) => [.expr left, .expr right]
  | .expr (.logical left _ right) => [.expr left, .expr right]
  | .expr (.assign _ _ value) => [.expr value]
  | .expr (.call callee _ arguments) => .expr callee :: arguments.map .expr
  | .expr (.get object _) => [.expr object]
  | .expr (.set object _ value) => [.expr object, .expr value]
  | .stmt (.expression value) => [.expr value]
  | .stmt (.print value) => [.expr value]
  | .stmt (.var _ (some value)) => [.expr value]
  | .stmt (.branch condition consequence alternative) =>
    .expr condition :: .stmt consequence :: alternative.toList.map .stmt
  | .stmt (.while condition body) => [.expr condition, .stmt body]
  | .stmt (.return _ (some value)) => [.expr value]
  | .stmt (.class _ (some clause) _) => [.expr clause]
  | _ => []

def Node.nodes : Node → List Node
  | .expr e => e.nodes
  | .stmt s => s.nodes

theorem Node.nodes_of_mem_parts (n : Node) :
    ∀ n' ∈ n.parts, ∀ k ∈ n'.nodes, k ∈ n.nodes := by
  cases n with
  | expr e =>
      cases e with
      | call callee paren arguments =>
          simp only [parts, nodes, Expr.nodes, Expr.nodesAll_eq_flatMap, List.forall_mem_cons,
            List.forall_mem_map, List.mem_append, List.mem_flatMap]
          exact ⟨fun k hk => .inl (.inl hk), fun e he k hk => .inl (.inr ⟨e, he, hk⟩)⟩
      | _ => simp +contextual [parts, nodes, Expr.nodes]
  | stmt s =>
      cases s with
      | branch condition consequence alternative =>
          cases alternative <;> simp +contextual [parts, nodes, Stmt.nodes]
      | var name e | «return» keyword e | «class» name e methods =>
          cases e <;> simp +contextual [parts, nodes, Stmt.nodes]
      | _ => simp +contextual [parts, nodes, Stmt.nodes]

structure Discipline where
  Situation : Type
  machine : Situation → Machine
  /-- How a situation may become another one. -/
  Later : Situation → Situation → Prop
  refl : ∀ s, Later s s
  trans : ∀ {s t u}, Later s t → Later t u → Later s u
  /-- The situation in another environment. -/
  enter : Situation → EnvironmentId → Situation
  machine_enter : ∀ s id, machine (enter s id) = { machine s with current := id }
  leave : ∀ {s t id}, Later (enter s id) t → Later s (enter t (machine s).current)
  /-- The nodes that may start. -/
  Admits : Situation → Node → Prop
  /-- The functions that may be called. -/
  Calls : Situation → Function → Prop

namespace Discipline

open Run

variable {D : Discipline} {alarm : Halt}

inductive Ends (D : Discipline) (s : D.Situation) (Q : D.Situation → α → Prop) :
    EStateM.Result Halt Machine α → Prop
  | ok {t : D.Situation} {a : α} : D.Later s t → Q t a → Ends D s Q (.ok a (D.machine t))
  | error {t : D.Situation} (halt : Halt) : D.Later s t → Ends D s Q (.error halt (D.machine t))

/-- A step that goes on to a later situation, with a result in `Q`. -/
def Keeps (D : Discipline) (s : D.Situation) (x : Run α) (Q : D.Situation → α → Prop) : Prop :=
  D.Ends s Q (x (D.machine s))

/-- A step that does the same as another one, which keeps the discipline or raises an alarm. -/
def Beside (D : Discipline) (alarm : Halt) (s : D.Situation) (x y : Run α)
    (Q : D.Situation → α → Prop) : Prop :=
  (∃ m, y (D.machine s) = .error alarm m) ∨ x (D.machine s) = y (D.machine s) ∧ D.Keeps s y Q

/-! ### Steps put together -/

section Steps

variable {s : D.Situation} {P Q : D.Situation → α → Prop}

theorem Ends.trans {t : D.Situation} {r : EStateM.Result Halt Machine α} (later : D.Later s t)
    (h : D.Ends t Q r) : D.Ends s Q r := by
  cases h with
  | ok later' q => exact .ok (D.trans later later') q
  | error halt later' => exact .error halt (D.trans later later')

theorem Keeps.pure {a : α} (h : Q s a) : D.Keeps s (pure a) Q := .ok (D.refl s) h

theorem Keeps.raise (fault : RuntimeFault) (culprit : Token) : D.Keeps s (raise fault culprit) Q :=
  .error _ (D.refl s)

theorem Keeps.imp {x : Run α} (h : D.Keeps s x P) (hPQ : ∀ t a, D.Later s t → P t a → Q t a) :
    D.Keeps s x Q := by
  unfold Keeps at h ⊢
  generalize x (D.machine s) = r at h ⊢
  cases h with
  | ok later p => exact .ok later (hPQ _ _ later p)
  | error halt later => exact .error halt later

theorem Keeps.bind {x : Run β} {P : D.Situation → β → Prop} {f : β → Run α} (h : D.Keeps s x P)
    (k : ∀ t b, D.Later s t → P t b → D.Keeps t (f b) Q) : D.Keeps s (x >>= f) Q := by
  unfold Keeps at h ⊢
  generalize ran : x (D.machine s) = r at h
  cases h with
  | ok later p =>
      rw [bind_of_ok ran]
      exact (k _ _ later p).trans later
  | error halt later =>
      rw [bind_of_error ran]
      exact .error halt later

theorem Keeps.get {f : Machine → Run α} (h : D.Keeps s (f (D.machine s)) Q) :
    D.Keeps s (get >>= f) Q := h

theorem Keeps.ofExcept {r : Except RuntimeError α} (h : ∀ a, r = .ok a → Q s a) :
    D.Keeps s (Run.ofExcept r) Q := by
  cases r with
  | ok a => exact .pure (h a rfl)
  | error e => exact .error _ (D.refl s)

theorem Keeps.flush : D.Keeps s Run.flush fun _ _ => True := by
  apply Keeps.get
  cases (D.machine s).sink.flushable with
  | true => exact .pure trivial
  | false => exact .error _ (D.refl s)

theorem Keeps.beside {x : Run α} (h : D.Keeps s x Q) : D.Beside alarm s x x Q := Or.inr ⟨rfl, h⟩

theorem Beside.imp {x y : Run α} (h : D.Beside alarm s x y P)
    (hPQ : ∀ t a, D.Later s t → P t a → Q t a) : D.Beside alarm s x y Q :=
  h.imp_right fun ⟨same, keeps⟩ => ⟨same, keeps.imp hPQ⟩

theorem Beside.pure {a : α} (h : Q s a) : D.Beside alarm s (pure a) (pure a) Q :=
  (Keeps.pure h).beside

theorem Beside.raise (fault : RuntimeFault) (culprit : Token) :
    D.Beside alarm s (raise fault culprit) (raise fault culprit) Q :=
  (Keeps.raise fault culprit).beside

theorem Beside.bind {x y : Run β} {P : D.Situation → β → Prop} {f g : β → Run α}
    (h : D.Beside alarm s x y P)
    (k : ∀ t b, D.Later s t → P t b → D.Beside alarm t (f b) (g b) Q) :
    D.Beside alarm s (x >>= f) (y >>= g) Q := by
  rcases h with ⟨m, alarmed⟩ | ⟨same, keeps⟩
  · exact Or.inl ⟨m, bind_of_error alarmed⟩
  · unfold Beside Keeps at *
    generalize ran : y (D.machine s) = r at same keeps
    cases keeps with
    | @ok t b later p =>
        rw [bind_of_ok same, bind_of_ok ran]
        rcases k t b later p with alarmed | ⟨same', keeps'⟩
        · exact Or.inl alarmed
        · exact Or.inr ⟨same', keeps'.trans later⟩
    | error halt later =>
        rw [bind_of_error same, bind_of_error ran]
        exact Or.inr ⟨rfl, .error halt later⟩

theorem Beside.get {f g : Machine → Run α}
    (h : D.Beside alarm s (f (D.machine s)) (g (D.machine s)) Q) :
    D.Beside alarm s (get >>= f) (get >>= g) Q := h

/-- Steps inside an environment and back, when what is known of the result is known outside. -/
theorem Beside.inside {id : EnvironmentId} {x y : Run α} (h : D.Beside alarm (D.enter s id) x y P)
    (hPQ : ∀ t a, P t a → Q (D.enter t (D.machine s).current) a) :
    D.Beside alarm s (within id x) (within id y) Q := by
  unfold Beside Keeps Run.within
  rcases h with ⟨m, alarmed⟩ | ⟨same, keeps⟩
  · rw [D.machine_enter] at alarmed
    rw [alarmed]
    exact Or.inl ⟨_, rfl⟩
  · unfold Keeps at keeps
    rw [D.machine_enter] at same keeps
    rw [same]
    refine Or.inr ⟨rfl, ?_⟩
    generalize y { D.machine s with current := id } = r at keeps ⊢
    cases keeps with
    | ok later p =>
        dsimp only
        rw [← D.machine_enter]
        exact .ok (D.leave later) (hPQ _ _ p)
    | error halt later =>
        dsimp only
        rw [← D.machine_enter]
        exact .error halt (D.leave later)

theorem Beside.within {id : EnvironmentId} {x y : Run α}
    (h : D.Beside alarm (D.enter s id) x y P) :
    D.Beside alarm s (within id x) (within id y) fun _ _ => True :=
  h.inside fun _ _ _ => trivial

/-- Steps that are the same whatever the alarm is: two different alarms cannot both be raised. -/
theorem Beside.same {x y : Run α} (h : ∀ alarm, D.Beside alarm s x y Q) :
    x (D.machine s) = y (D.machine s) ∧ D.Keeps s y Q := by
  rcases h .outOfFuel with ⟨m, stuck⟩ | same
  · rcases h (.output .closed) with ⟨m', closed⟩ | same
    · rw [stuck] at closed
      cases closed
    · exact same
  · exact same

/-- A step that is taken beside itself keeps the discipline. -/
theorem Keeps.of_beside {x : Run α} (h : ∀ alarm, D.Beside alarm s x x Q) : D.Keeps s x Q :=
  (Beside.same h).2

/-- A step that comes to its end does so in a later situation. -/
theorem Keeps.exists_of_ok {x : Run α} (h : D.Keeps s x Q) {a : α} {m : Machine}
    (ran : x (D.machine s) = .ok a m) : ∃ t, D.machine t = m ∧ D.Later s t ∧ Q t a := by
  unfold Keeps at h
  rw [ran] at h
  cases h with
  | ok later q => exact ⟨_, rfl, later, q⟩

theorem Keeps.within {id : EnvironmentId} {x : Run α} (h : D.Keeps (D.enter s id) x P) :
    D.Keeps s (within id x) fun _ _ => True :=
  .of_beside fun _ => h.beside.within

end Steps

/-! ### Names and properties -/

section Lookups

variable {s : D.Situation}

theorem Keeps.lookUp {Q : D.Situation → Value → Prop} {site : Site} {name : Token}
    (held : ∀ v, (D.machine s).valueAt? site name.lexeme = some v → Q s v) :
    D.Keeps s (Run.lookUp site name) Q := by
  apply Keeps.get
  cases found : (D.machine s).valueAt? site name.lexeme with
  | none => exact .raise .undefinedVariable name
  | some v => exact .pure (held v found)

theorem Keeps.overwrite {Q : D.Situation → Unit → Prop} {site : Site} {name : Token} {v : Value}
    (defined : ∀ holder, (D.machine s).holderAt? site name.lexeme = some holder →
      D.Keeps s (define holder name.lexeme v) Q) : D.Keeps s (Run.overwrite site name v) Q := by
  apply Keeps.get
  cases found : (D.machine s).holderAt? site name.lexeme with
  | none => exact .raise .undefinedVariable name
  | some holder => exact defined holder found

theorem Keeps.boundMethod {P : D.Situation → Function → Prop} {Q : D.Situation → Value → Prop}
    {f : Function} {receiver : ObjectId} (bound : D.Keeps s (bindMethod f receiver) P)
    (made : ∀ t g, D.Later s t → P t g → D.Keeps t (newFunction g) fun u id => Q u (.function id)) :
    D.Keeps s (Run.boundMethod f receiver) Q := by
  apply bound.bind
  intro t g later p
  apply (made t g later p).bind
  intro u id _ q
  exact .pure q

/-- A property is a field, or a method that is bound. -/
theorem Keeps.property {Q : D.Situation → Value → Prop} {id : ObjectId} {name : Token}
    (field : ∀ o v, (D.machine s).heap.objects[id.index]? = some o →
      o.fields.get? name.lexeme = some v → Q s v)
    (method : ∀ o f, (D.machine s).heap.objects[id.index]? = some o →
      (D.machine s).heap.method? o.classId name.lexeme = some f →
      D.Keeps s (Run.boundMethod f id) Q) : D.Keeps s (Run.property id name) Q := by
  apply Keeps.get
  split
  · exact .raise .undefinedProperty name
  · rename_i o object
    split
    · rename_i v held
      exact .pure (field o v object held)
    · split
      · rename_i f found
        exact method o f object found
      · exact .raise .undefinedProperty name

/-- A method of the class above is bound to the receiver, which is one environment further in. -/
theorem Keeps.superMethod {Q : D.Situation → Value → Prop} {site : Site} {keyword method : Token}
    (bound : ∀ inner above id f,
      (D.machine s).heap.forest.getAt? (D.machine s).current (inner + 1) superName =
        some (.class above) →
      (D.machine s).heap.forest.getAt? (D.machine s).current inner receiverName =
        some (.object id) →
      (D.machine s).heap.method? above method.lexeme = some f →
      D.Keeps s (Run.boundMethod f id) Q) : D.Keeps s (Run.superMethod site keyword method) Q := by
  apply Keeps.get
  split
  · exact .raise .undefinedVariable keyword
  · rename_i distance _
    split
    · rename_i above super
      dsimp only
      split
      · rename_i id receiver
        cases distance with
        | zero => cases receiver
        | succ inner =>
            split
            · rename_i f found
              exact bound inner above id f super receiver found
            · exact .raise .undefinedProperty method
      · exact .raise .superOutsideMethod keyword
    · exact .raise .undefinedVariable keyword

end Lookups

/-! ### What there is to show -/

/-- The small steps of execution that do not depend on values keep a discipline. -/
structure Steady (D : Discipline) : Prop where
  later : ∀ {s t n}, D.Later s t → D.Admits s n → D.Admits t n
  parts : ∀ {s n}, D.Admits s n → ∀ n' ∈ n.parts, D.Admits s n'
  block : ∀ {s ss}, D.Admits s (.stmt (.block ss)) →
    D.Keeps s (newEnvironment (D.machine s).current) fun t id =>
      ∀ st ∈ ss, D.Admits (D.enter t id) (.stmt st)
  declareFunction : ∀ {s d}, D.Admits s (.stmt (.function d)) →
    D.Keeps s (newFunction ⟨d, (D.machine s).current, false⟩) fun t id =>
      D.Keeps t (defineHere d.name.lexeme (.function id)) fun _ _ => True
  clock : ∀ s, D.Keeps s readClock fun _ _ => True
  write : ∀ s piece, D.Keeps s (write piece) fun _ _ => True

structure Respected (D : Discipline) : Prop extends D.Steady where
  overwrite : ∀ {s site name e}, D.Admits s (.expr (.assign site name e)) → ∀ value,
    D.Keeps s (Run.overwrite site name value) fun _ _ => True
  property : ∀ {s e name}, D.Admits s (.expr (.get e name)) → ∀ id,
    D.Keeps s (Run.property id name) fun _ _ => True
  setField : ∀ {s e name e'}, D.Admits s (.expr (.set e name e')) → ∀ id value,
    D.Keeps s (Run.setField id name.lexeme value) fun _ _ => True
  superMethod : ∀ {s site keyword method}, D.Admits s (.expr (.super site keyword method)) →
    D.Keeps s (Run.superMethod site keyword method) fun _ _ => True
  define : ∀ {s name e}, D.Admits s (.stmt (.var name e)) → ∀ value,
    D.Keeps s (defineHere name.lexeme value) fun _ _ => True
  declareClass : ∀ {s name clause ds}, D.Admits s (.stmt (.class name clause ds)) → ∀ above,
    D.Keeps s (Run.declareClass name above ds) fun _ _ => True
  callee : ∀ {s f} {id : FunctionId}, (D.machine s).heap.functions[id.index]? = some f → D.Calls s f
  object : ∀ s id, D.Keeps s (newObject id) fun _ _ => True
  initializer : ∀ {s id f}, (D.machine s).heap.method? id initializerName = some f →
    D.Keeps s (newObject id) fun t receiver => D.Keeps t (bindMethod f receiver) D.Calls
  call : ∀ {s f}, D.Calls s f → ∀ arguments,
    D.Keeps s (newEnvironment f.closure) fun t id =>
      D.Keeps t (modifyForest
        (·.defineAll id ((f.declaration.parameters.map Token.lexeme).zip arguments))) fun u _ =>
        ∀ st ∈ f.declaration.body, D.Admits (D.enter u id) (.stmt st)

/-- The small steps of execution keep a discipline, and the values that they pass on to each other
have a property in every situation. -/
structure Tracked (D : Discipline) (Holds : D.Situation → Value → Prop) : Prop
    extends D.Steady where
  holds : ∀ {s t v}, D.Later s t → Holds s v → Holds t v
  holds_enter : ∀ {s v}, Holds s v → ∀ id, Holds (D.enter s id) v
  /-- Values that refer to nothing have the property. -/
  plain : ∀ s {v}, v.place? = none → Holds s v
  lookUp : ∀ {s site name e}, D.Admits s (.expr e) →
    e = .variable site name ∨ e = .this site name → D.Keeps s (Run.lookUp site name) Holds
  overwrite : ∀ {s site name e}, D.Admits s (.expr (.assign site name e)) → ∀ {value},
    Holds s value → D.Keeps s (Run.overwrite site name value) fun _ _ => True
  property : ∀ {s e name}, D.Admits s (.expr (.get e name)) → ∀ {id}, Holds s (.object id) →
    D.Keeps s (Run.property id name) Holds
  setField : ∀ {s e name e'}, D.Admits s (.expr (.set e name e')) → ∀ {id value},
    Holds s (.object id) → Holds s value →
    D.Keeps s (Run.setField id name.lexeme value) fun _ _ => True
  superMethod : ∀ {s site keyword method}, D.Admits s (.expr (.super site keyword method)) →
    D.Keeps s (Run.superMethod site keyword method) Holds
  define : ∀ {s name e}, D.Admits s (.stmt (.var name e)) → ∀ {value}, Holds s value →
    D.Keeps s (defineHere name.lexeme value) fun _ _ => True
  declareClass : ∀ {s name clause ds}, D.Admits s (.stmt (.class name clause ds)) → ∀ above,
    (∀ id ∈ above, Holds s (.class id)) → D.Keeps s (Run.declareClass name above ds) fun _ _ => True
  callee : ∀ {s f} {id : FunctionId}, Holds s (.function id) →
    (D.machine s).heap.functions[id.index]? = some f → D.Calls s f
  object : ∀ {s id}, Holds s (.class id) →
    D.Keeps s (newObject id) fun t receiver => Holds t (.object receiver)
  initializer : ∀ {s id f}, Holds s (.class id) →
    (D.machine s).heap.method? id initializerName = some f →
    D.Keeps s (newObject id) fun t receiver =>
      Holds t (.object receiver) ∧ D.Keeps t (bindMethod f receiver) D.Calls
  call : ∀ {s f}, D.Calls s f → ∀ {arguments}, (∀ v ∈ arguments, Holds s v) →
    D.Keeps s (newEnvironment f.closure) fun t id =>
      D.Keeps t (modifyForest
        (·.defineAll id ((f.declaration.parameters.map Token.lexeme).zip arguments))) fun u _ =>
        ∀ st ∈ f.declaration.body, D.Admits (D.enter u id) (.stmt st)
  /-- What an initializer yields. -/
  receiver : ∀ {s t f}, D.Calls s f → D.Later s t → ∀ v,
    (D.machine t).heap.forest.getAt? f.closure 0 receiverName = some v → Holds t v

/-! ### Executions -/

def Evaluates (D : Discipline) (alarm : Halt) (evaluate₁ evaluate₂ : Expr → Run Value) : Prop :=
  ∀ {s e}, D.Admits s (.expr e) →
    D.Beside alarm s (evaluate₁ e) (evaluate₂ e) fun _ _ => True

def Executes (D : Discipline) (alarm : Halt) (execute₁ execute₂ : Stmt → Run Flow) : Prop :=
  ∀ {s st}, D.Admits s (.stmt st) →
    D.Beside alarm s (execute₁ st) (execute₂ st) fun _ _ => True

def Yields (D : Discipline) (Holds : D.Situation → Value → Prop) (alarm : Halt)
    (evaluate₁ evaluate₂ : Expr → Run Value) : Prop :=
  ∀ {s e}, D.Admits s (.expr e) → D.Beside alarm s (evaluate₁ e) (evaluate₂ e) Holds

def Returns (D : Discipline) (Holds : D.Situation → Value → Prop) (alarm : Halt)
    (execute₁ execute₂ : Stmt → Run Flow) : Prop :=
  ∀ {s st}, D.Admits s (.stmt st) →
    D.Beside alarm s (execute₁ st) (execute₂ st) fun t flow => flow.Holds (Holds t)

variable {evaluate₁ evaluate₂ : Expr → Run Value} {execute₁ execute₂ : Stmt → Run Flow}
  {s : D.Situation}

namespace Tracked

variable {Holds : D.Situation → Value → Prop}

theorem evaluateAll (law : D.Tracked Holds) (he : D.Yields Holds alarm evaluate₁ evaluate₂)
    {es : List Expr} (admitted : ∀ e ∈ es, D.Admits s (.expr e)) :
    D.Beside alarm s (evaluateAll evaluate₁ es) (evaluateAll evaluate₂ es) fun t vs =>
      ∀ v ∈ vs, Holds t v := by
  induction es generalizing s with
  | nil => exact .pure fun v hv => by cases hv
  | cons e es ih =>
      obtain ⟨first, rest⟩ := List.forall_mem_cons.1 admitted
      apply (he first).bind
      intro t v later held
      apply (ih fun e' h => law.later later (rest e' h)).bind
      intro u vs later' all
      exact .pure (List.forall_mem_cons.2 ⟨law.holds later' held, all⟩)

theorem sequence (law : D.Tracked Holds) (hx : D.Returns Holds alarm execute₁ execute₂)
    {ss : List Stmt} (admitted : ∀ st ∈ ss, D.Admits s (.stmt st)) :
    D.Beside alarm s (sequence execute₁ ss) (sequence execute₂ ss) fun t flow =>
      flow.Holds (Holds t) := by
  induction ss generalizing s with
  | nil => exact .pure trivial
  | cons st ss ih =>
      obtain ⟨first, rest⟩ := List.forall_mem_cons.1 admitted
      apply (hx first).bind
      intro t flow later held
      cases flow with
      | normal => exact ih fun st' h => law.later later (rest st' h)
      | returned value => exact .pure held

theorem writeAll (law : D.Tracked Holds) (pieces : List String) :
    D.Keeps s (writeAll pieces) fun _ _ => True := by
  induction pieces generalizing s with
  | nil => exact .pure trivial
  | cons piece pieces ih => exact (law.write s piece).bind fun _ _ _ _ => ih

/-- A flow out of a body has the property also around it. -/
theorem holds_leave (law : D.Tracked Holds) (id : EnvironmentId) {t : D.Situation} {flow : Flow}
    (held : flow.Holds (Holds t)) : flow.Holds (Holds (D.enter t id)) := by
  cases flow with
  | normal => trivial
  | returned value => exact law.holds_enter held id

theorem enter (law : D.Tracked Holds) (hx : D.Returns Holds alarm execute₁ execute₂)
    {f : Function} (calls : D.Calls s f) {arguments : List Value}
    (held : ∀ v ∈ arguments, Holds s v) :
    D.Beside alarm s (Run.enter execute₁ f arguments) (Run.enter execute₂ f arguments) Holds := by
  apply (law.call calls held).beside.bind
  intro t id later parameters
  apply parameters.beside.bind
  intro u _ later' admitted
  have body := (law.sequence hx admitted).inside (Q := fun t flow => flow.Holds (Holds t))
    fun _ _ => law.holds_leave _
  apply body.bind
  intro v flow later'' returned
  cases f.isInitializer with
  | true =>
      apply Beside.get
      apply Beside.pure
      cases found : (D.machine v).heap.forest.getAt? f.closure 0 receiverName with
      | none => exact law.plain v rfl
      | some receiver =>
          exact law.receiver calls (D.trans later (D.trans later' later'')) receiver found
  | false =>
      cases flow with
      | normal => exact .pure (law.plain v rfl)
      | returned value => exact .pure returned

theorem callValue (law : D.Tracked Holds) (hx : D.Returns Holds alarm execute₁ execute₂)
    {callee : Value} (held : Holds s callee) (paren : Token) {arguments : List Value}
    (all : ∀ v ∈ arguments, Holds s v) :
    D.Beside alarm s (callValue execute₁ callee paren arguments)
      (callValue execute₂ callee paren arguments) Holds := by
  apply Beside.get
  cases hc : (D.machine s).heap.callable? callee with
  | none => exact .raise .notCallable paren
  | some c =>
      by_cases arity : arguments.length = c.arity
      · simp only [arity, if_true]
        cases callee with
        | native id =>
            cases hc
            exact (law.clock s).beside.bind fun t _ _ _ => .pure (law.plain t rfl)
        | function id =>
            obtain ⟨f, hf, rfl⟩ := Option.map_eq_some_iff.1 hc
            exact law.enter hx (law.callee held hf) all
        | «class» id =>
            obtain rfl := Option.some.inj hc
            cases hm : (D.machine s).heap.method? id initializerName with
            | none => exact (law.object held).beside.bind fun t receiver _ made => .pure made
            | some f =>
                apply (law.initializer held hm).beside.bind
                intro t receiver later made
                apply made.2.beside.bind
                intro u g later' calls
                have all' (v : Value) (hv : v ∈ arguments) : Holds u v :=
                  law.holds later' (law.holds later (all v hv))
                apply (law.enter hx calls all').bind
                intro v _ later'' _
                exact .pure (law.holds later'' (law.holds later' made.1))
        | _ => cases hc
      · simp only [arity, if_false]
        exact .raise _ paren

theorem expression (law : D.Tracked Holds) (he : D.Yields Holds alarm evaluate₁ evaluate₂)
    (hx : D.Returns Holds alarm execute₁ execute₂) {e : Expr} (admitted : D.Admits s (.expr e)) :
    D.Beside alarm s (e.step evaluate₁ execute₁) (e.step evaluate₂ execute₂) Holds := by
  have part (e' : Expr) (h : .expr e' ∈ (Node.expr e).parts) : D.Admits s (.expr e') :=
    law.parts admitted _ h
  cases e with
  | literal value => exact .pure (law.plain s value.place?_value)
  | grouping inner => exact he (part inner (by simp [Node.parts]))
  | unary operator right =>
      apply (he (part right (by simp [Node.parts]))).bind
      intro t v _ _
      exact (Keeps.ofExcept fun w h => law.plain t (Value.place?_of_unary h)).beside
  | binary left operator right =>
      apply (he (part left (by simp [Node.parts]))).bind
      intro t a later _
      apply (he (law.later later (part right (by simp [Node.parts])))).bind
      intro u b _ _
      exact (Keeps.ofExcept fun w h => law.plain u (Value.place?_of_binary h)).beside
  | logical left operator right =>
      apply (he (part left (by simp [Node.parts]))).bind
      intro t a later held
      split
      · exact .pure held
      · exact he (law.later later (part right (by simp [Node.parts])))
  | «variable» site name => exact (law.lookUp admitted (Or.inl rfl)).beside
  | assign site name value =>
      apply (he (part value (by simp [Node.parts]))).bind
      intro t v later held
      apply (law.overwrite (law.later later admitted) held).beside.bind
      intro u _ later' _
      exact .pure (law.holds later' held)
  | call callee paren arguments =>
      apply (he (part callee (by simp [Node.parts]))).bind
      intro t c later held
      have each (e : Expr) (h : e ∈ arguments) : D.Admits t (.expr e) :=
        law.later later (part e (by simp [Node.parts, h]))
      apply (law.evaluateAll he each).bind
      intro u vs later' all
      exact law.callValue hx (law.holds later' held) paren all
  | get object name =>
      apply (he (part object (by simp [Node.parts]))).bind
      intro t v later held
      cases v with
      | object id => exact (law.property (law.later later admitted) held).beside
      | _ => exact .raise .propertyOfNonObject name
  | set object name value =>
      apply (he (part object (by simp [Node.parts]))).bind
      intro t v later held
      cases v with
      | object id =>
          apply (he (law.later later (part value (by simp [Node.parts])))).bind
          intro u v later' held'
          have admitted' := law.later later' (law.later later admitted)
          apply (law.setField admitted' (law.holds later' held) held').beside.bind
          intro w _ later'' _
          exact .pure (law.holds later'' held')
      | _ => exact .raise .fieldOfNonObject name
  | this site keyword => exact (law.lookUp admitted (Or.inr rfl)).beside
  | super site keyword method => exact (law.superMethod admitted).beside

theorem statement (law : D.Tracked Holds) (he : D.Yields Holds alarm evaluate₁ evaluate₂)
    (hx : D.Returns Holds alarm execute₁ execute₂) {st : Stmt}
    (admitted : D.Admits s (.stmt st)) :
    D.Beside alarm s (st.step evaluate₁ execute₁) (st.step evaluate₂ execute₂)
      fun t flow => flow.Holds (Holds t) := by
  have part (n : Node) (h : n ∈ (Node.stmt st).parts) : D.Admits s n := law.parts admitted n h
  cases st with
  | expression value =>
      exact (he (part _ (by simp [Node.parts]))).bind fun _ _ _ _ => .pure trivial
  | print value =>
      apply (he (part _ (by simp [Node.parts]))).bind
      intro t v _ _
      apply Beside.get
      exact (law.writeAll _).beside.bind fun _ _ _ _ => .pure trivial
  | var name initializer =>
      cases initializer with
      | none =>
          exact (law.define admitted (law.plain s rfl)).beside.bind fun _ _ _ _ => .pure trivial
      | some value =>
          apply (he (part _ (by simp [Node.parts]))).bind
          intro t v later held
          exact (law.define (law.later later admitted) held).beside.bind fun _ _ _ _ =>
            .pure trivial
  | block body =>
      apply Beside.get
      apply (law.block admitted).beside.bind
      intro t id _ inside
      exact (law.sequence hx inside).inside fun u flow => law.holds_leave _
  | branch condition consequence alternative =>
      apply (he (part (.expr condition) (by simp [Node.parts]))).bind
      intro t v later _
      split
      · exact hx (law.later later (part (.stmt consequence) (by simp [Node.parts])))
      · cases alternative with
        | none => exact .pure trivial
        | some other => exact hx (law.later later (part (.stmt other) (by simp [Node.parts])))
  | «while» condition body =>
      apply (he (part (.expr condition) (by simp [Node.parts]))).bind
      intro t v later _
      split
      · apply (hx (law.later later (part (.stmt body) (by simp [Node.parts])))).bind
        intro u flow later' held
        cases flow with
        | normal => exact hx (law.later later' (law.later later admitted))
        | returned value => exact .pure held
      · exact .pure trivial
  | function d =>
      apply Beside.get
      apply (law.declareFunction admitted).beside.bind
      intro t id _ named
      exact named.beside.bind fun _ _ _ _ => .pure trivial
  | «return» keyword value =>
      cases value with
      | none => exact .pure (law.plain s rfl)
      | some value => exact (he (part _ (by simp [Node.parts]))).bind fun _ _ _ held => .pure held
  | «class» name clause methods =>
      cases clause with
      | none =>
          have declared := law.declareClass admitted none fun id h => by cases h
          exact declared.beside.bind fun _ _ _ _ => .pure trivial
      | some clause =>
          apply Beside.bind (P := fun t id => Holds t (.class id))
          · -- what the clause names
            apply (he (part _ (by simp [Node.parts]))).bind
            intro t v _ held
            cases v with
            | «class» id => exact .pure held
            | _ => cases clause <;> exact .raise _ _
          · intro t above later held
            have declared := law.declareClass (law.later later admitted) (some above)
              fun id h => Option.some.inj h ▸ held
            exact declared.beside.bind fun _ _ _ _ => .pure trivial

variable {watch₁ watch₂ : Node → Run Unit}

/-- Executions keep a discipline, whatever their watchers do to keep it. -/
theorem beside (law : D.Tracked Holds)
    (watches : ∀ {s n}, D.Admits s n → D.Beside alarm s (watch₁ n) (watch₂ n) fun _ _ => True)
    (fuel : Nat) :
    D.Yields Holds alarm (evaluateWatched watch₁ fuel) (evaluateWatched watch₂ fuel) ∧
      D.Returns Holds alarm (executeWatched watch₁ fuel) (executeWatched watch₂ fuel) := by
  induction fuel with
  | zero =>
      constructor
      · intro s e _
        exact Or.inr ⟨rfl, .error .outOfFuel (D.refl s)⟩
      · intro s st _
        exact Or.inr ⟨rfl, .error .outOfFuel (D.refl s)⟩
  | succ fuel ih =>
      obtain ⟨he, hx⟩ := ih
      constructor
      · intro s e admitted
        exact (watches admitted).bind fun t _ later _ =>
          law.expression he hx (law.later later admitted)
      · intro s st admitted
        exact (watches admitted).bind fun t _ later _ =>
          law.statement he hx (law.later later admitted)

theorem besides (law : D.Tracked Holds) (alarm : Halt) (fuel : Nat) :
    D.Yields Holds alarm (Lox.evaluate fuel) (Lox.evaluate fuel) ∧
      D.Returns Holds alarm (Lox.execute fuel) (Lox.execute fuel) := by
  rw [← (watched_unwatched fuel).1, ← (watched_unwatched fuel).2]
  exact law.beside (fun _ => .pure trivial) fuel

theorem executeAll (law : D.Tracked Holds)
    (watches : ∀ {s n}, D.Admits s n → D.Beside alarm s (watch₁ n) (watch₂ n) fun _ _ => True)
    (fuel : Nat) {ss : List Stmt} (admitted : ∀ st ∈ ss, D.Admits s (.stmt st)) :
    D.Beside alarm s (executeAllWatched watch₁ fuel ss) (executeAllWatched watch₂ fuel ss)
      fun _ _ => True := by
  induction ss generalizing s with
  | nil => exact Keeps.flush.beside
  | cons st ss ih =>
      obtain ⟨first, rest⟩ := List.forall_mem_cons.1 admitted
      apply ((law.beside watches fuel).2 first).bind
      intro t _ later _
      exact ih fun st' h => law.later later (rest st' h)

theorem ends (law : D.Tracked Holds) (fuel : Nat) {ss : List Stmt}
    (admitted : ∀ st ∈ ss, D.Admits s (.stmt st)) :
    D.Ends s (fun _ _ => True) (Lox.executeAll fuel ss (D.machine s)) := by
  apply Keeps.of_beside
  intro alarm
  rw [← executeAllWatched_unwatched]
  exact law.executeAll (fun _ => .pure trivial) fuel admitted

/-- What follows from the discipline and from what holds throughout an execution holds throughout
it. -/
theorem throughout (law : D.Tracked Holds) {P T : Node → Machine → Prop}
    (sound : ∀ {s n}, D.Admits s n → P n (D.machine s) → T n (D.machine s)) {fuel : Nat}
    {ss : List Stmt} (admitted : ∀ st ∈ ss, D.Admits s (.stmt st))
    (holds : Throughout P fuel ss (D.machine s)) : Throughout T fuel ss (D.machine s) := by
  intro otherwise
  have guarded (alarm : Halt) : D.Beside alarm s
      (executeAllWatched (Run.check T otherwise) fuel ss)
      (executeAllWatched (Run.check P (throw alarm)) fuel ss) fun _ _ => True := by
    apply law.executeAll _ fuel admitted
    intro s n admitted
    by_cases h : P n (D.machine s)
    · refine Or.inr ⟨?_, ?_⟩
      · rw [Run.check, Run.check, if_pos h, if_pos (sound admitted h)]
      · rw [Keeps, Run.check, if_pos h]
        exact .ok (D.refl s) trivial
    · refine Or.inl ⟨D.machine s, ?_⟩
      rw [Run.check, if_neg h]
      rfl
  have beside (alarm : Halt) : D.Beside alarm s
      (executeAllWatched (Run.check T otherwise) fuel ss) (Lox.executeAll fuel ss)
      fun _ _ => True := by
    have same := guarded alarm
    rwa [Beside, Keeps, holds (throw alarm)] at same
  exact (Beside.same beside).1

end Tracked

/-- Nothing has to be known of values. -/
theorem Respected.tracked (law : D.Respected) : D.Tracked fun _ _ => True where
  toSteady := law.toSteady
  holds _ _ := trivial
  holds_enter _ _ := trivial
  plain _ _ _ := trivial
  lookUp _ _ := .lookUp fun _ _ => trivial
  overwrite admitted _ _ := law.overwrite admitted _
  property admitted _ _ := law.property admitted _
  setField admitted _ _ _ _ := law.setField admitted _ _
  superMethod := law.superMethod
  define admitted _ _ := law.define admitted _
  declareClass admitted above _ := law.declareClass admitted above
  callee _ := law.callee
  object _ := law.object _ _
  initializer _ found := (law.initializer found).imp fun _ _ _ bound => ⟨trivial, bound⟩
  call calls _ _ := law.call calls _
  receiver _ _ _ _ := trivial

namespace Respected

theorem executes (h : D.Returns (fun _ _ => True) alarm execute₁ execute₂) :
    D.Executes alarm execute₁ execute₂ :=
  fun admitted => (h admitted).imp fun _ _ _ _ => trivial

theorem returns (h : D.Executes alarm execute₁ execute₂) :
    D.Returns (fun _ _ => True) alarm execute₁ execute₂ :=
  fun admitted => (h admitted).imp fun _ flow _ _ => by cases flow <;> trivial

theorem sequence (law : D.Respected) (hx : D.Executes alarm execute₁ execute₂) {ss : List Stmt}
    (admitted : ∀ st ∈ ss, D.Admits s (.stmt st)) :
    D.Beside alarm s (Run.sequence execute₁ ss) (Run.sequence execute₂ ss) fun _ _ => True :=
  (law.tracked.sequence (returns hx) admitted).imp fun _ _ _ _ => trivial

theorem enter (law : D.Respected) (hx : D.Executes alarm execute₁ execute₂) {f : Function}
    (calls : D.Calls s f) (arguments : List Value) :
    D.Beside alarm s (Run.enter execute₁ f arguments) (Run.enter execute₂ f arguments)
      fun _ _ => True :=
  law.tracked.enter (returns hx) calls fun _ _ => trivial

theorem besides (law : D.Respected) (alarm : Halt) (fuel : Nat) :
    D.Evaluates alarm (Lox.evaluate fuel) (Lox.evaluate fuel) ∧
      D.Executes alarm (Lox.execute fuel) (Lox.execute fuel) :=
  ⟨(law.tracked.besides alarm fuel).1, executes (law.tracked.besides alarm fuel).2⟩

theorem ends (law : D.Respected) (fuel : Nat) {ss : List Stmt}
    (admitted : ∀ st ∈ ss, D.Admits s (.stmt st)) :
    D.Ends s (fun _ _ => True) (Lox.executeAll fuel ss (D.machine s)) :=
  law.tracked.ends fuel admitted

/-- What follows from the discipline and from what holds throughout an execution holds throughout
it. -/
theorem throughout (law : D.Respected) {P T : Node → Machine → Prop}
    (sound : ∀ {s n}, D.Admits s n → P n (D.machine s) → T n (D.machine s)) {fuel : Nat}
    {ss : List Stmt} (admitted : ∀ st ∈ ss, D.Admits s (.stmt st))
    (holds : Throughout P fuel ss (D.machine s)) : Throughout T fuel ss (D.machine s) :=
  law.tracked.throughout sound admitted holds

end Respected

end Discipline

end Lox
