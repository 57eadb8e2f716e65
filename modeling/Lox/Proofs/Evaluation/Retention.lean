import Lox.Proofs.Evaluation.Discipline
import Lox.Proofs.Heap.Renaming

/-!
# What executions leave in place

However an evaluation or an execution ends, it ends in the environment that it started in, and no
environment has lost a name or is enclosed by another one than before (`Machine.Retains`).  Nothing
has to be known of the heap, of the distances or of the program for this: it is a discipline in
which every node may start and every function may be called.

The methods of a class that has a superclass are declared in an environment of their own.  To
declare a class is to go into that environment and back (`declareClass_eq_within`).
-/

namespace Lox

/-! ### Environments -/

/-- No environment has lost a name, and they are enclosed as before. -/
structure Forest.Retains (f f' : Forest) : Prop where
  size : f.environments.size ≤ f'.environments.size
  enclosing : ∀ e : EnvironmentId, e.index < f.environments.size → f'.enclosing? e = f.enclosing? e
  holds : ∀ e name, (f.own? e name).isSome → (f'.own? e name).isSome

namespace Forest

variable {f f' f'' : Forest}

theorem Retains.refl (f : Forest) : f.Retains f := ⟨Nat.le_refl _, fun _ _ => rfl, fun _ _ => id⟩

theorem Retains.trans (h : f.Retains f') (h' : f'.Retains f'') : f.Retains f'' where
  size := Nat.le_trans h.size h'.size
  enclosing e he :=
    (h'.enclosing e (Nat.lt_of_lt_of_le he h.size)).trans (h.enclosing e he)
  holds e name held := h'.holds e name (h.holds e name held)

/-- The environment at a distance is still the same one. -/
theorem Retains.ancestor? (retains : f.Retains f') {id e : EnvironmentId} {distance : Nat}
    (found : f.ancestor? id distance = some e) : f'.ancestor? id distance = some e := by
  induction distance generalizing id with
  | zero => exact found
  | succ distance ih =>
      obtain ⟨outer, enclosing, found⟩ := Option.bind_eq_some_iff.1 found
      have same := retains.enclosing id (f.lt_size_of_enclosing? enclosing)
      rw [Forest.ancestor?, same, enclosing]
      exact ih found

theorem retains_define (f : Forest) (id : EnvironmentId) (name : String) (value : Value) :
    f.Retains (f.define id name value) where
  size := by rw [size_define]
  enclosing e _ := f.enclosing?_define id e name value
  holds e other held := f.isSome_own?_define id e name other value held

theorem retains_defineAll (f : Forest) (id : EnvironmentId) (entries : List (String × Value)) :
    f.Retains (f.defineAll id entries) where
  size := by rw [size_defineAll]
  enclosing e _ := f.enclosing?_defineAll id e entries
  holds e other held := f.isSome_own?_defineAll id e entries other held

theorem retains_grow (f : Forest) (outer : Option EnvironmentId) : f.Retains (f.grow outer) where
  size := by simp [grow]
  enclosing e he := by rw [enclosing?, enclosing?, f.environment?_grow_of_lt outer he]
  holds e name held := by
    rw [own?, f.environment?_grow_of_lt outer (f.lt_size_of_own? held)]
    exact held

end Forest

/-- The current environment is the same, and no environment has lost a name. -/
structure Machine.Retains (m m' : Machine) : Prop where
  current : m'.current = m.current
  globals : m'.globals = m.globals
  environments : m.heap.forest.Retains m'.heap.forest

namespace Machine.Retains

variable {m m' m'' : Machine}

theorem refl (m : Machine) : m.Retains m := ⟨rfl, rfl, .refl _⟩

theorem trans (h : m.Retains m') (h' : m'.Retains m'') : m.Retains m'' :=
  ⟨h'.current.trans h.current, h'.globals.trans h.globals, h.environments.trans h'.environments⟩

end Machine.Retains

/-- To declare a class is to go into the environment of its methods, to make the class there, and to
come back. -/
theorem Run.declareClass_eq_within (name : Token) (superclass : Option ClassId)
    (methods : List FunctionDecl) :
    declareClass name superclass methods = (do
      defineHere name.lexeme .nil
      let inside ← methodEnvironment superclass
      let id ← within inside do
        newClass ⟨name.lexeme, superclass, methodTable (← get).current methods⟩
      let m ← get
      match m.heap.forest.holder? m.current name.lexeme with
      | some holder => define holder name.lexeme (.class id)
      | none => raise .undefinedVariable name) := by
  cases superclass <;> rfl

/-! ### The discipline -/

namespace Retention

open Run Discipline

variable {known : Std.TreeMap Site Nat}

/-- Executions retain what is there and record no distances. -/
def discipline (known : Std.TreeMap Site Nat) : Discipline where
  Situation := { m : Machine // m.distances = known }
  machine := Subtype.val
  Later s t := s.1.Retains t.1
  refl s := .refl s.1
  trans := .trans
  enter s id := ⟨{ s.1 with current := id }, s.2⟩
  machine_enter _ _ := rfl
  leave later := ⟨rfl, later.globals, later.environments⟩
  Admits _ _ := True
  Calls _ _ := True

variable {s : { m : Machine // m.distances = known }} {α : Type}

theorem keeps {x : Run α} {a : α} {m : Machine} (ran : x s.1 = .ok a m)
    (distances : m.distances = s.1.distances) (retains : s.1.Retains m) :
    (discipline known).Keeps s x fun _ _ => True := by
  change (discipline known).Ends s _ (x s.1)
  rw [ran]
  exact Discipline.Ends.ok (D := discipline known) (t := ⟨m, distances.trans s.2⟩) retains trivial

theorem define (id : EnvironmentId) (name : String) (value : Value) :
    (discipline known).Keeps s (define id name value) fun _ _ => True :=
  keeps rfl rfl ⟨rfl, rfl, s.1.heap.forest.retains_define id name value⟩

theorem defineAll (id : EnvironmentId) (entries : List (String × Value)) :
    (discipline known).Keeps s (modifyForest (·.defineAll id entries)) fun _ _ => True :=
  keeps rfl rfl ⟨rfl, rfl, s.1.heap.forest.retains_defineAll id entries⟩

theorem defineHere (name : String) (value : Value) :
    (discipline known).Keeps s (defineHere name value) fun _ _ => True := by
  apply Keeps.get
  exact define s.1.current name value

theorem newEnvironment (outer : EnvironmentId) :
    (discipline known).Keeps s (newEnvironment outer) fun _ _ => True :=
  keeps rfl rfl ⟨rfl, rfl, s.1.heap.forest.retains_grow outer⟩

theorem newFunction (f : Function) :
    (discipline known).Keeps s (newFunction f) fun _ _ => True :=
  keeps rfl rfl ⟨rfl, rfl, .refl _⟩

theorem newClass (c : Class) : (discipline known).Keeps s (newClass c) fun _ _ => True :=
  keeps rfl rfl ⟨rfl, rfl, .refl _⟩

theorem newObject (id : ClassId) : (discipline known).Keeps s (newObject id) fun _ _ => True :=
  keeps rfl rfl ⟨rfl, rfl, .refl _⟩

theorem bindMethod (f : Function) (receiver : ObjectId) :
    (discipline known).Keeps s (bindMethod f receiver) fun _ _ => True := by
  apply (newEnvironment f.closure).bind
  intro t environment _ _
  apply (define environment receiverName (.object receiver)).bind
  intro u _ _ _
  exact .pure trivial

theorem boundMethod (f : Function) (receiver : ObjectId) :
    (discipline known).Keeps s (boundMethod f receiver) fun _ _ => True :=
  .boundMethod (bindMethod f receiver) fun _ g _ _ => newFunction g

theorem methodEnvironment (above : Option ClassId) :
    (discipline known).Keeps s (methodEnvironment above) fun _ _ => True := by
  apply Keeps.get
  cases above with
  | none => exact .pure trivial
  | some id =>
      apply (newEnvironment s.1.current).bind
      intro t environment _ _
      apply (define environment superName (.class id)).bind
      intro u _ _ _
      exact .pure trivial

theorem declareClass (name : Token) (above : Option ClassId) (methods : List FunctionDecl) :
    (discipline known).Keeps s (declareClass name above methods) fun _ _ => True := by
  rw [declareClass_eq_within]
  apply (defineHere name.lexeme .nil).bind
  intro t _ _ _
  apply (methodEnvironment above).bind
  intro u inside _ _
  have made : (discipline known).Keeps ((discipline known).enter u inside) (do
      Run.newClass ⟨name.lexeme, above, methodTable (← get).current methods⟩) fun _ _ => True := by
    apply Keeps.get
    exact newClass _
  apply (Keeps.within made).bind
  intro v id _ _
  apply Keeps.get
  split
  · exact define _ name.lexeme (.class id)
  · exact .raise .undefinedVariable name

theorem respected (known : Std.TreeMap Site Nat) : (discipline known).Respected where
  later _ _ := trivial
  parts _ _ _ := trivial
  overwrite {_ _ name _} _ value := .overwrite fun holder _ => define holder name.lexeme value
  property _ id := .property (fun _ _ _ _ => trivial) fun _ f _ _ => boundMethod f id
  setField {_ _ name _} _ id value := keeps rfl rfl ⟨rfl, rfl, .refl _⟩
  superMethod _ := .superMethod fun _ _ id f _ _ _ => boundMethod f id
  define {_ name _} _ value := defineHere name.lexeme value
  block {s _} _ := (newEnvironment s.1.current).imp fun _ _ _ _ _ _ => trivial
  declareFunction {_ d} _ := (newFunction _).imp fun _ id _ _ =>
    defineHere d.name.lexeme (.function id)
  declareClass {_ name _ ds} _ above := declareClass name above ds
  callee _ := trivial
  object _ id := newObject id
  initializer {_ id f} _ := (newObject id).imp fun _ receiver _ _ => bindMethod f receiver
  call {_ f} _ _ := (newEnvironment f.closure).imp fun _ id _ _ =>
    (defineAll id _).imp fun _ _ _ _ _ _ => trivial
  clock _ := keeps rfl rfl ⟨rfl, rfl, .refl _⟩
  write s piece := by
    apply Keeps.get
    split
    · exact keeps rfl rfl ⟨rfl, rfl, .refl _⟩
    · exact .error _ ((discipline known).refl s)

theorem invoke (fuel : Nat) (callee : Callable) (arguments : List Value) :
    (discipline known).Keeps s (invoke (execute fuel) callee arguments) fun _ _ => True := by
  have enter {s} (f : Function) :
      (discipline known).Keeps s (Run.enter (execute fuel) f arguments) fun _ _ => True :=
    .of_beside fun alarm =>
      (respected known).enter ((respected known).besides alarm fuel).2 trivial arguments
  cases callee with
  | native => exact ((respected known).clock s).bind fun _ _ _ _ => .pure trivial
  | function f => exact enter f
  | «class» id initializer =>
      cases initializer with
      | none => exact (newObject id).bind fun _ _ _ _ => .pure trivial
      | some f =>
          apply (newObject id).bind
          intro t receiver _ _
          apply (bindMethod f receiver).bind
          intro u g _ _
          apply (enter g).bind
          intro v _ _ _
          exact .pure trivial

end Retention

def Run.leaves {α : Type} (x : Run α) (m : Machine) : Machine :=
  match x m with
  | .ok _ m' => m'
  | .error _ m' => m'

/-- A run that keeps a discipline leaves the machine of a later situation behind. -/
theorem Discipline.Keeps.exists_leaves {D : Discipline} {α : Type} {s : D.Situation} {x : Run α}
    {Q : D.Situation → α → Prop} (h : D.Keeps s x Q) :
    ∃ t, D.Later s t ∧ D.machine t = x.leaves (D.machine s) := by
  unfold Keeps at h
  rw [Run.leaves]
  generalize x (D.machine s) = r at h
  cases h with
  | @ok t _ later _ => exact ⟨t, later, rfl⟩
  | @error t _ later => exact ⟨t, later, rfl⟩

/-- What a run that keeps the discipline leaves behind. -/
theorem Retention.leaves {α : Type} {x : Run α} {m : Machine}
    (h : (discipline m.distances).Keeps ⟨m, rfl⟩ x fun _ _ => True) :
    m.Retains (x.leaves m) ∧ (x.leaves m).distances = m.distances := by
  obtain ⟨t, retains, same⟩ := h.exists_leaves
  change t.1 = x.leaves m at same
  rw [← same]
  exact ⟨retains, t.2⟩

/-- What holds throughout an execution holds with the distances that are there at its beginning. -/
theorem Retention.throughout {P T : Node → Machine → Prop} {m : Machine} {fuel : Nat}
    {ss : List Stmt} (sound : ∀ n m', m'.distances = m.distances → P n m' → T n m')
    (holds : Throughout P fuel ss m) : Throughout T fuel ss m := by
  have law := respected m.distances
  apply law.throughout (s := (⟨m, rfl⟩ : { m' : Machine // m'.distances = m.distances })) (P := P)
  · intro t n _ held
    exact sound n t.1 t.2 held
  · exact fun _ _ => trivial
  · exact holds

end Lox
