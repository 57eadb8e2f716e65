import Lox.Proofs.Evaluation.Retention
import Lox.Proofs.Heap.Region

/-!
# What a call cannot reach

A call works on what can be reached from the environment of the whole program, from what is called
and from the arguments, and on what it makes itself.  These places are a region that no link leads
out of, and every small step of execution that starts in the region stays in it: what it looks up,
makes or is given is inside, and so is what it changes.  So whatever else is in the heap is after
the call as it was before (`call_isolated`).

The values that are passed on between the steps have to be followed for this, so that the region is
a discipline that is tracked (`Discipline.Tracked`).
-/

namespace Lox

/-- The values can reach the place, or the environment of the whole program can. -/
def Machine.CanReach (m : Machine) (values : List Value) (p : Place) : Prop :=
  m.heap.Reaches (.environment m.globals) p ∨
    ∃ v ∈ values, ∃ q, v.place? = some q ∧ m.heap.Reaches q p

namespace Isolation

open Run Discipline

variable {R : Place → Prop} {h₀ : Heap}

def discipline (R : Place → Prop) (h₀ : Heap) : Discipline where
  Situation := { m : Machine // Heap.Confined R h₀ m.heap ∧ R (.environment m.globals) }
  machine := Subtype.val
  Later s t := t.1.current = s.1.current
  refl _ := rfl
  trans first second := second.trans first
  enter s id := ⟨{ s.1 with current := id }, s.2⟩
  machine_enter _ _ := rfl
  leave _ := rfl
  Admits s _ := R (.environment s.1.current)
  Calls _ f := R (.environment f.closure)

variable {s : { m : Machine // Heap.Confined R h₀ m.heap ∧ R (.environment m.globals) }}
  {α : Type}

theorem keeps {x : Run α} {a : α} {m : Machine}
    {Q : { m : Machine // Heap.Confined R h₀ m.heap ∧ R (.environment m.globals) } → α → Prop}
    (ran : x s.1 = .ok a m) (confined : Heap.Confined R h₀ m.heap)
    (globals : m.globals = s.1.globals) (current : m.current = s.1.current)
    (q : ∀ inside, Q ⟨m, inside⟩ a) : (discipline R h₀).Keeps s x Q := by
  have inside : Heap.Confined R h₀ m.heap ∧ R (.environment m.globals) :=
    ⟨confined, globals ▸ s.2.2⟩
  change (discipline R h₀).Ends s Q (x s.1)
  rw [ran]
  exact Discipline.Ends.ok (D := discipline R h₀) (t := ⟨m, inside⟩) current (q inside)

/-! ### Small steps -/

theorem define {id : EnvironmentId} (here : R (.environment id)) (name : String) {v : Value}
    (inside : v.In R) : (discipline R h₀).Keeps s (define id name v) fun _ _ => True :=
  keeps rfl (s.2.1.define here name inside) rfl rfl fun _ => trivial

theorem defineHere (here : R (.environment s.1.current)) (name : String) {v : Value}
    (inside : v.In R) : (discipline R h₀).Keeps s (defineHere name v) fun _ _ => True := by
  apply Keeps.get
  exact define here name inside

theorem newEnvironment {outer : EnvironmentId} (here : R (.environment outer)) :
    (discipline R h₀).Keeps s (newEnvironment outer) fun _ id => R (.environment id) := by
  refine keeps rfl (s.2.1.grow here) rfl rfl fun _ => s.2.1.new ?_
  exact Nat.lt_irrefl _

theorem newFunction {f : Function} (here : R (.environment f.closure)) :
    (discipline R h₀).Keeps s (newFunction f) fun _ id => R (.function id) := by
  refine keeps rfl (s.2.1.pushFunction here) rfl rfl fun _ => s.2.1.new ?_
  exact Nat.lt_irrefl _

theorem newObject {id : ClassId} (here : R (.class id)) :
    (discipline R h₀).Keeps s (newObject id) fun _ receiver => R (.object receiver) := by
  refine keeps rfl (s.2.1.pushObject here) rfl rfl fun _ => s.2.1.new ?_
  exact Nat.lt_irrefl _

theorem object_in {id : ObjectId} (here : R (.object id)) : (Value.object id).In R := by
  rintro p ⟨⟩
  exact here

theorem function_in {id : FunctionId} (here : R (.function id)) : (Value.function id).In R := by
  rintro p ⟨⟩
  exact here

theorem class_in {id : ClassId} (here : R (.class id)) : (Value.class id).In R := by
  rintro p ⟨⟩
  exact here

theorem bindMethod {f : Function} (here : R (.environment f.closure)) {receiver : ObjectId}
    (inside : R (.object receiver)) :
    (discipline R h₀).Keeps s (bindMethod f receiver) fun _ g => R (.environment g.closure) := by
  apply (newEnvironment here).bind
  intro t environment _ made
  apply (define made receiverName (object_in inside)).bind
  intro u _ _ _
  exact .pure made

theorem boundMethod {f : Function} (here : R (.environment f.closure)) {receiver : ObjectId}
    (inside : R (.object receiver)) :
    (discipline R h₀).Keeps s (boundMethod f receiver) fun _ v => v.In R :=
  .boundMethod (bindMethod here inside) fun _ _ _ closure =>
    (newFunction closure).imp fun _ _ _ made => function_in made

theorem lookUp (here : R (.environment s.1.current)) (site : Site) (name : Token) :
    (discipline R h₀).Keeps s (lookUp site name) fun _ v => v.In R := by
  apply Keeps.lookUp
  intro v found
  rw [Machine.valueAt?] at found
  split at found
  · exact s.2.1.closed.getAt? here found
  · exact s.2.1.closed.get? s.2.2 found

theorem overwrite (here : R (.environment s.1.current)) (site : Site) (name : Token) {v : Value}
    (inside : v.In R) : (discipline R h₀).Keeps s (overwrite site name v) fun _ _ => True := by
  apply Keeps.overwrite
  intro holder found
  refine define ?_ name.lexeme inside
  rw [Machine.holderAt?] at found
  split at found
  · exact s.2.1.closed.holderAt? here found
  · exact s.2.1.closed.holder? s.2.2 found

theorem property {id : ObjectId} (here : R (.object id)) (name : Token) :
    (discipline R h₀).Keeps s (property id name) fun _ v => v.In R := by
  apply Keeps.property
  · intro o v object held
    exact s.2.1.closed.field object held here
  · intro o f object found
    have above := s.2.1.closed.classOf object here
    exact boundMethod (s.2.1.closed.method? above found) here

theorem superMethod (here : R (.environment s.1.current)) (site : Site) (keyword method : Token) :
    (discipline R h₀).Keeps s (superMethod site keyword method) fun _ v => v.In R := by
  apply Keeps.superMethod
  intro inner above id f super receiver found
  have inside : R (.class above) := s.2.1.closed.getAt? here super _ rfl
  refine boundMethod (s.2.1.closed.method? inside found) ?_
  exact s.2.1.closed.getAt? here receiver _ rfl

theorem methodEnvironment (here : R (.environment s.1.current)) {above : Option ClassId}
    (inside : ∀ id ∈ above, R (.class id)) :
    (discipline R h₀).Keeps s (methodEnvironment above) fun _ id => R (.environment id) := by
  apply Keeps.get
  cases above with
  | none => exact .pure here
  | some id =>
      apply (newEnvironment here).bind
      intro t environment _ made
      apply (define made superName (class_in (inside id rfl))).bind
      intro u _ _ _
      exact .pure made

theorem declareClass (here : R (.environment s.1.current)) (name : Token) {above : Option ClassId}
    (inside : ∀ id ∈ above, R (.class id)) (methods : List FunctionDecl) :
    (discipline R h₀).Keeps s (declareClass name above methods) fun _ _ => True := by
  apply (defineHere here name.lexeme (.plain rfl)).bind
  intro t _ (later : t.1.current = s.1.current) _
  apply (methodEnvironment (later ▸ here) inside).bind
  intro u closure (later' : u.1.current = t.1.current) made
  have table (key : String) (f : Function)
      (found : (methodTable closure methods).get? key = some f) : R (.environment f.closure) := by
    obtain ⟨d, -, -, same⟩ := mem_of_methodTable found
    exact same ▸ made
  have class_made : (discipline R h₀).Keeps u
      (newClass ⟨name.lexeme, above, methodTable closure methods⟩) fun _ id => R (.class id) := by
    refine keeps rfl (u.2.1.pushClass inside table) rfl rfl fun _ => u.2.1.new ?_
    exact Nat.lt_irrefl _
  apply class_made.bind
  intro v id (later'' : v.1.current = u.1.current) inside'
  apply Keeps.get
  have current : R (.environment v.1.current) := by
    rw [later'', later', later]
    exact here
  split
  · rename_i holder found
    exact define (v.2.1.closed.holder? current found) name.lexeme (class_in inside')
  · exact .raise .undefinedVariable name

theorem of_mem_zip {names : List String} {arguments : List Value} (all : ∀ v ∈ arguments, v.In R) :
    ∀ entry ∈ names.zip arguments, entry.2.In R :=
  fun entry member => all entry.2 (List.of_mem_zip member).2

theorem tracked (R : Place → Prop) (h₀ : Heap) :
    (discipline R h₀).Tracked fun _ v => v.In R where
  later {s t _} later here := by
    change R (.environment t.1.current)
    exact (show t.1.current = s.1.current from later) ▸ here
  parts here _ _ := here
  holds _ inside := inside
  holds_enter inside _ := inside
  plain _ _ := .plain
  lookUp {_ site name _} here _ := lookUp here site name
  overwrite {_ site name _} here _ inside := overwrite here site name inside
  property {_ _ name} _ _ inside := property (inside _ rfl) name
  setField {s _ name _} _ id _ object inside :=
    keeps rfl (s.2.1.setField (object _ rfl) name.lexeme inside) rfl rfl fun _ => trivial
  superMethod {_ site keyword method} here := superMethod here site keyword method
  define {_ name _} here _ inside := defineHere here name.lexeme inside
  block here := (newEnvironment here).imp fun _ _ _ made _ _ => made
  declareFunction {s d} here := (newFunction here).imp fun t id later made =>
    defineHere (later ▸ here) d.name.lexeme (function_in made)
  declareClass {_ name _ ds} here _ inside :=
    declareClass here name (fun id h => inside id h _ rfl) ds
  callee {s _ _} inside found := s.2.1.closed.closure found (inside _ rfl)
  object inside := (newObject (inside _ rfl)).imp fun _ _ _ made => object_in made
  initializer {s _ f} inside found := (newObject (inside _ rfl)).imp fun t _ _ made =>
    ⟨object_in made, bindMethod (s.2.1.closed.method? (inside _ rfl) found) made⟩
  call {_ f} here _ all := (newEnvironment here).imp fun t id _ made =>
    keeps rfl (t.2.1.defineAll made (of_mem_zip all)) rfl rfl fun _ _ _ => made
  receiver {_ t _} here _ _ found := t.2.1.closed.getAt? here found
  clock s := keeps rfl s.2.1 rfl rfl fun _ => trivial
  write s piece := by
    apply Keeps.get
    split
    · exact keeps rfl s.2.1 rfl rfl fun _ => trivial
    · exact .error _ ((discipline R h₀).refl s)

end Isolation

/-! ### Calls -/

variable {m : Machine} {values : List Value}

theorem Machine.CanReach.link {p q : Place} (link : m.heap.Link p q) (h : m.CanReach values p) :
    m.CanReach values q := by
  rcases h with fromGlobals | ⟨v, hv, r, place, fromValue⟩
  · exact Or.inl (fromGlobals.tail link)
  · exact Or.inr ⟨v, hv, r, place, fromValue.tail link⟩

/-- Nothing outside a closed region can be reached from inside. -/
theorem Machine.CanReach.inside {R : Place → Prop} (closed : m.heap.Closed R)
    (globals : R (.environment m.globals)) (inside : ∀ v ∈ values, v.In R) {p : Place}
    (h : m.CanReach values p) : R p := by
  rcases h with fromGlobals | ⟨v, hv, q, place, fromValue⟩
  · exact closed.reaches fromGlobals globals
  · exact closed.reaches fromValue (inside v hv q place)

/-- What can be reached, together with all that will be made. -/
def Machine.Region (m : Machine) (values : List Value) (p : Place) : Prop :=
  m.CanReach values p ∨ ¬ m.heap.Made p

theorem Machine.confined (m : Machine) (values : List Value) :
    Heap.Confined (m.Region values) m.heap m.heap where
  fresh _ new := Or.inr new
  made _ made := made
  closed := by
    refine Heap.closed_of_link fun p q link here => ?_
    rcases here with here | new
    · exact Or.inl (here.link link)
    · exact absurd link.made new
  environment _ _ found _ := found
  object _ _ found _ := found

theorem Machine.in_region {v : Value} (hv : v ∈ values) : v.In (m.Region values) :=
  fun p place => Or.inl (Or.inr ⟨v, hv, p, place, .refl⟩)

/-- What a call leaves behind has changed inside the region only. -/
theorem Machine.confined_call (fuel : Nat) (m : Machine) (callee : Value) (paren : Token)
    (arguments : List Value) :
    let m' := (Run.callValue (execute fuel) callee paren arguments).leaves m
    Heap.Confined (m.Region (callee :: arguments)) m.heap m'.heap := by
  intro m'
  let R := m.Region (callee :: arguments)
  have globals : R (.environment m.globals) := Or.inl (Or.inl .refl)
  have law := Isolation.tracked R m.heap
  have keeps : (Isolation.discipline R m.heap).Keeps ⟨m, m.confined _, globals⟩
      (Run.callValue (execute fuel) callee paren arguments) fun _ v => v.In R := by
    refine .of_beside fun alarm => law.callValue (law.besides alarm fuel).2 ?_ paren ?_
    · exact m.in_region List.mem_cons_self
    · exact fun v hv => m.in_region (List.mem_cons_of_mem _ hv)
  obtain ⟨t, -, same⟩ := keeps.exists_leaves
  change t.1 = m' at same
  exact same ▸ t.2.1

theorem Machine.retains_call (fuel : Nat) (m : Machine) (callee : Value) (paren : Token)
    (arguments : List Value) :
    m.Retains ((Run.callValue (execute fuel) callee paren arguments).leaves m) := by
  have law := (Retention.respected m.distances).tracked
  refine (Retention.leaves (.of_beside fun alarm => ?_)).1
  exact law.callValue (law.besides alarm fuel).2 trivial paren fun _ _ => trivial

/-- A call changes nothing that cannot be reached from the environment of the whole program, from
what is called or from the arguments, however it ends.  So a variable of the caller keeps its value
if its environment cannot be reached. -/
theorem call_isolated (fuel : Nat) (m : Machine) (callee : Value) (paren : Token)
    (arguments : List Value) :
    let m' := (Run.callValue (execute fuel) callee paren arguments).leaves m
    let reached := m.CanReach (callee :: arguments)
    (∀ e c, m.heap.forest.environment? e = some c → ¬ reached (.environment e) →
      m'.heap.forest.environment? e = some c) ∧
    (∀ (id : ObjectId) o, m.heap.objects[id.index]? = some o → ¬ reached (.object id) →
      m'.heap.objects[id.index]? = some o) ∧
    ∀ distance e name v, m.heap.forest.ancestor? m.current distance = some e →
      m.heap.forest.own? e name = some v → ¬ reached (.environment e) →
      m'.heap.forest.getAt? m'.current distance name = some v := by
  intro m' reached
  have confined := m.confined_call fuel callee paren arguments
  have retains := m.retains_call fuel callee paren arguments
  have environments (e : EnvironmentId) (c : Environment)
      (found : m.heap.forest.environment? e = some c) (apart : ¬ reached (.environment e)) :
      m'.heap.forest.environment? e = some c := by
    refine confined.environment e c found fun inside => inside.elim apart fun new => new ?_
    exact m.heap.forest.lt_size_of_environment? found
  refine ⟨environments, fun id o found apart => ?_, fun distance e name v found own apart => ?_⟩
  · refine confined.object id o found fun inside => inside.elim apart fun new => new ?_
    exact (Array.getElem?_eq_some_iff.1 found).1
  · obtain ⟨c, here, held⟩ := Option.bind_eq_some_iff.1 own
    rw [retains.current, Forest.getAt?, retains.environments.ancestor? found, Option.bind_some,
      Forest.own?, environments e c here apart, Option.bind_some, held]

/-- A function that assigns to a variable of the whole program, called from a block whose variable
holds an object. -/
theorem call_isolated_block :
    let name (lexeme : String) : Token := ⟨.identifier, lexeme, 1⟩
    let body : List Stmt := [.expression (.assign 0 (name "y") (.literal (.bool false)))]
    let heap : Heap :=
      { forest := ⟨#[⟨[("y", .bool true)], none⟩, ⟨[("x", .object ⟨0⟩)], some ⟨0⟩⟩]⟩
        functions := #[⟨⟨name "f", [], body⟩, ⟨0⟩, false⟩]
        classes := #[⟨"A", none, []⟩]
        objects := #[⟨⟨0⟩, [("k", .bool true)]⟩]
        natives := #[] }
    let m : Machine := ⟨heap, ⟨0⟩, ⟨1⟩, ∅, .unlimited, fun _ => 0, 0⟩
    let m' := (Run.callValue (execute 3) (.function ⟨0⟩) (name "f") []).leaves m
    m'.heap.forest.own? ⟨0⟩ "y" = some (.bool false) ∧
      ¬ m.CanReach [.function ⟨0⟩] (.environment ⟨1⟩) ∧
      ¬ m.CanReach [.function ⟨0⟩] (.object ⟨0⟩) ∧
      m'.heap.forest.environment? ⟨1⟩ = some ⟨[("x", .object ⟨0⟩)], some ⟨0⟩⟩ ∧
      m'.heap.objects[0]? = some ⟨⟨0⟩, [("k", .bool true)]⟩ ∧
      m'.heap.forest.getAt? m'.current 0 "x" = some (.object ⟨0⟩) := by
  intro name body heap m m'
  have closed : heap.Closed fun p => p = .environment ⟨0⟩ ∨ p = .function ⟨0⟩ := by
    refine Heap.closed_of_link fun p q link here => ?_
    rcases here with rfl | rfl
    · cases link with
      | enclosing outer => cases outer
      | @binding _ other v _ own place =>
          have held : (if "y" = other then some (Value.bool true) else none) = some v := own
          split at held
          · obtain rfl := Option.some.inj held
            cases place
          · cases held
    · cases link with
      | closure found =>
          obtain rfl := Option.some.inj found
          exact Or.inl rfl
  have assigned : m'.heap.forest.own? ⟨0⟩ "y" = some (.bool false) := by decide +kernel
  have inside (p : Place) (reached : m.CanReach [.function ⟨0⟩] p) :
      p = .environment ⟨0⟩ ∨ p = .function ⟨0⟩ := by
    refine reached.inside closed (Or.inl rfl) fun v hv q place => ?_
    obtain rfl := List.mem_singleton.1 hv
    exact Or.inr (Option.some.inj place).symm
  have local_apart : ¬ m.CanReach [.function ⟨0⟩] (.environment ⟨1⟩) :=
    fun reached => by rcases inside _ reached with same | same <;> cases same
  have object_apart : ¬ m.CanReach [.function ⟨0⟩] (.object ⟨0⟩) :=
    fun reached => by rcases inside _ reached with same | same <;> cases same
  obtain ⟨environments, objects, locals⟩ := call_isolated 3 m (.function ⟨0⟩) (name "f") []
  exact ⟨assigned, local_apart, object_apart, environments _ _ rfl local_apart,
    objects ⟨0⟩ _ rfl object_apart, locals 0 ⟨1⟩ "x" _ rfl rfl local_apart⟩

end Lox
