import Lox.Proofs.Evaluation.Discipline
import Lox.Proofs.Heap.Grounded

/-!
# Executions keep heaps grounded

Every small step of execution makes places with links to what is there already, and passes on values
that refer to what is there.  So the heap stays grounded, and what a place was made with stays as it
is.  Nothing has to be known of the program or of the distances for this, except that what is called
and the current environment were made.
-/

namespace Lox

/-- The heap of a machine is grounded, and the environment of the whole program is in it. -/
def Machine.Grounded (m : Machine) : Prop :=
  m.heap.Grounded ∧ m.heap.Made (.environment m.globals)

namespace Grounding

open Run Discipline

def discipline : Discipline where
  Situation := { m : Machine // m.Grounded }
  machine := Subtype.val
  Later s t := s.1.heap.Extends t.1.heap ∧ t.1.current = s.1.current
  refl _ := ⟨.refl _, rfl⟩
  trans first second := ⟨first.1.trans second.1, second.2.trans first.2⟩
  enter s id := ⟨{ s.1 with current := id }, s.2⟩
  machine_enter _ _ := rfl
  leave later := ⟨later.1, rfl⟩
  Admits s _ := s.1.heap.Made (.environment s.1.current)
  Calls s f := s.1.heap.Made (.environment f.closure)

variable {s t : { m : Machine // m.Grounded }} {α : Type}

theorem keeps {x : Run α} {a : α} {m : Machine} {Q : { m : Machine // m.Grounded } → α → Prop}
    (ran : x s.1 = .ok a m) (grounded : m.heap.Grounded) (ext : s.1.heap.Extends m.heap)
    (globals : m.globals = s.1.globals) (current : m.current = s.1.current)
    (q : ∀ still, Q ⟨m, still⟩ a) : discipline.Keeps s x Q := by
  have still : m.Grounded := ⟨grounded, globals ▸ ext.made s.2.2⟩
  change discipline.Ends s Q (x s.1)
  rw [ran]
  exact Discipline.Ends.ok (D := discipline) (t := ⟨m, still⟩) ⟨ext, current⟩ (q still)

/-- What was made is there later on. -/
theorem made_later (later : discipline.Later s t) {p : Place} (made : s.1.heap.Made p) :
    t.1.heap.Made p :=
  later.1.made made

theorem holds_later (later : discipline.Later s t) {v : Value} (here : v.In s.1.heap.Made) :
    v.In t.1.heap.Made :=
  later.1.holds here

theorem admits_later (later : discipline.Later s t)
    (here : s.1.heap.Made (.environment s.1.current)) :
    t.1.heap.Made (.environment t.1.current) :=
  later.2 ▸ made_later later here

/-! ### Small steps -/

theorem define (id : EnvironmentId) (name : String) {v : Value} (here : v.In s.1.heap.Made) :
    discipline.Keeps s (define id name v) fun _ _ => True :=
  keeps rfl (s.2.1.define id name here) (.define _ id name v) rfl rfl fun _ => trivial

theorem defineHere (name : String) {v : Value} (here : v.In s.1.heap.Made) :
    discipline.Keeps s (defineHere name v) fun _ _ => True := by
  apply Keeps.get
  exact define s.1.current name here

theorem newEnvironment {outer : EnvironmentId} (here : s.1.heap.Made (.environment outer)) :
    discipline.Keeps s (newEnvironment outer) fun t id => t.1.heap.Made (.environment id) := by
  refine keeps rfl (s.2.1.grow here) (.grow _ _) rfl rfl fun _ => ?_
  simp [Heap.Made, Forest.grow, Forest.next]

theorem newFunction {f : Function} (here : s.1.heap.Made (.environment f.closure)) :
    discipline.Keeps s (newFunction f) fun t id => (Value.function id).In t.1.heap.Made := by
  refine keeps rfl (s.2.1.pushFunction here) (.pushFunction _ f) rfl rfl fun _ => ?_
  rintro p ⟨⟩
  simp [Heap.Made]

theorem newClass {c : Class} (above : ∀ id ∈ c.superclass, s.1.heap.Made (.class id))
    (methods : ∀ name f, c.methods.get? name = some f → s.1.heap.Made (.environment f.closure)) :
    discipline.Keeps s (newClass c) fun t id => (Value.class id).In t.1.heap.Made := by
  refine keeps rfl (s.2.1.pushClass above methods) (.pushClass _ c) rfl rfl fun _ => ?_
  rintro p ⟨⟩
  simp [Heap.Made]

theorem newObject {id : ClassId} (here : s.1.heap.Made (.class id)) :
    discipline.Keeps s (newObject id) fun t receiver =>
      (Value.object receiver).In t.1.heap.Made := by
  refine keeps rfl (s.2.1.pushObject here) (.pushObject _ ⟨id, []⟩) rfl rfl fun _ => ?_
  rintro p ⟨⟩
  simp [Heap.Made]

theorem bindMethod {f : Function} (here : s.1.heap.Made (.environment f.closure))
    {receiver : ObjectId} (object : (Value.object receiver).In s.1.heap.Made) :
    discipline.Keeps s (bindMethod f receiver) discipline.Calls := by
  apply (newEnvironment here).bind
  intro t environment later made
  apply (define environment receiverName (holds_later later object)).bind
  intro u _ later' _
  exact .pure (made_later later' made)

theorem boundMethod {f : Function} (here : s.1.heap.Made (.environment f.closure))
    {receiver : ObjectId} (object : (Value.object receiver).In s.1.heap.Made) :
    discipline.Keeps s (boundMethod f receiver) fun t v => v.In t.1.heap.Made :=
  .boundMethod (bindMethod here object) fun _ _ _ closure => newFunction closure

/-- What can be looked up was made. -/
theorem closed (s : { m : Machine // m.Grounded }) : s.1.heap.Closed s.1.heap.Made :=
  s.2.1.closed (.refl _)

theorem lookUp (here : s.1.heap.Made (.environment s.1.current)) (site : Site) (name : Token) :
    discipline.Keeps s (lookUp site name) fun t v => v.In t.1.heap.Made := by
  apply Keeps.lookUp
  intro v found
  rw [Machine.valueAt?] at found
  split at found
  · exact (closed s).getAt? here found
  · exact (closed s).get? s.2.2 found

theorem property {id : ObjectId} (here : (Value.object id).In s.1.heap.Made) (name : Token) :
    discipline.Keeps s (property id name) fun t v => v.In t.1.heap.Made := by
  apply Keeps.property
  · intro o v object held
    exact (closed s).field object held (here _ rfl)
  · intro o f object found
    have above := (closed s).classOf object (here _ rfl)
    exact boundMethod ((closed s).method? above found) here

theorem superMethod (here : s.1.heap.Made (.environment s.1.current)) (site : Site)
    (keyword method : Token) :
    discipline.Keeps s (superMethod site keyword method) fun t v => v.In t.1.heap.Made := by
  apply Keeps.superMethod
  intro inner above id f super receiver found
  have inside : s.1.heap.Made (.class above) := (closed s).getAt? here super _ rfl
  exact boundMethod ((closed s).method? inside found) ((closed s).getAt? here receiver)

theorem methodEnvironment (here : s.1.heap.Made (.environment s.1.current)) {above : Option ClassId}
    (inside : ∀ id ∈ above, (Value.class id).In s.1.heap.Made) :
    discipline.Keeps s (methodEnvironment above) fun t id => t.1.heap.Made (.environment id) := by
  apply Keeps.get
  cases above with
  | none => exact .pure here
  | some id =>
      apply (newEnvironment here).bind
      intro t environment later made
      apply (define environment superName (holds_later later (inside id rfl))).bind
      intro u _ later' _
      exact .pure (made_later later' made)

theorem declareClass (here : s.1.heap.Made (.environment s.1.current)) (name : Token)
    {above : Option ClassId} (inside : ∀ id ∈ above, (Value.class id).In s.1.heap.Made)
    (methods : List FunctionDecl) :
    discipline.Keeps s (declareClass name above methods) fun _ _ => True := by
  apply (defineHere name.lexeme (.plain rfl)).bind
  intro t _ later _
  have inside' (id : ClassId) (h : id ∈ above) : (Value.class id).In t.1.heap.Made :=
    holds_later later (inside id h)
  apply (methodEnvironment (admits_later later here) inside').bind
  intro u closure later' made
  have class_made : discipline.Keeps u
      (Run.newClass ⟨name.lexeme, above, methodTable closure methods⟩) fun t id =>
        (Value.class id).In t.1.heap.Made := by
    refine newClass (fun id h => holds_later later' (inside' id h) _ rfl) fun key f found => ?_
    obtain ⟨d, -, -, same⟩ := mem_of_methodTable found
    exact same ▸ made
  apply class_made.bind
  intro v id _ held
  apply Keeps.get
  split
  · exact define _ name.lexeme held
  · exact .raise .undefinedVariable name

theorem of_mem_zip {R : Place → Prop} {names : List String} {arguments : List Value}
    (all : ∀ v ∈ arguments, v.In R) : ∀ entry ∈ names.zip arguments, entry.2.In R :=
  fun entry member => all entry.2 (List.of_mem_zip member).2

theorem tracked : discipline.Tracked fun s v => v.In s.1.heap.Made where
  later later here := admits_later later here
  parts here _ _ := here
  holds later inside := holds_later later inside
  holds_enter inside _ := inside
  plain _ _ := .plain
  lookUp {_ site name _} here _ := lookUp here site name
  overwrite {_ _ name _} _ _ inside := .overwrite fun holder _ => define holder name.lexeme inside
  property {_ _ name} _ _ inside := property inside name
  setField {s _ name _} _ id v _ inside :=
    keeps rfl (s.2.1.setField id name.lexeme inside) (.setField _ id name.lexeme v) rfl rfl
      fun _ => trivial
  superMethod {_ site keyword method} here := superMethod here site keyword method
  define {_ name _} _ _ inside := defineHere name.lexeme inside
  block here := (newEnvironment here).imp fun _ _ _ made _ _ => made
  declareFunction {s d} here := (newFunction (f := ⟨d, s.1.current, false⟩) here).imp
    fun _ _ _ made => defineHere d.name.lexeme made
  declareClass {_ name _ ds} here _ inside := declareClass here name inside ds
  callee {s _ _} inside found := (closed s).closure found (inside _ rfl)
  object inside := newObject (inside _ rfl)
  initializer {s _ f} inside found := (newObject (inside _ rfl)).imp fun _ _ later made =>
    ⟨made, bindMethod (made_later later ((closed s).method? (inside _ rfl) found)) made⟩
  call {_ f} here _ all := (newEnvironment here).imp fun t id later made =>
    keeps rfl (t.2.1.defineAll id (of_mem_zip fun v hv => holds_later later (all v hv)))
      (.defineAll _ id _) rfl rfl fun _ _ _ => (Heap.Extends.defineAll t.1.heap id _).made made
  receiver {_ t _} here later _ found := (closed t).getAt? (made_later later here) found
  clock s := keeps rfl s.2.1 (.refl _) rfl rfl fun _ => trivial
  write s piece := by
    apply Keeps.get
    split
    · exact keeps rfl s.2.1 (.refl _) rfl rfl fun _ => trivial
    · exact .error _ (discipline.refl s)

end Grounding

end Lox
