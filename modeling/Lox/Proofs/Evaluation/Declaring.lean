import Lox.Proofs.Evaluation.Retention
import Lox.Proofs.Grammar.Outcome
import Lox.Proofs.Heap.Receiver

/-!
# What declares names

A name is added to an environment by a declaration, and a declaration adds it to the environment
that it is executed in.  Everything else leaves the names of the environments that are there as they
are: blocks and calls declare in environments of their own.  Since the grammar lets no declaration
stand where an `if` branches to or a `while` repeats, what a scope declares does not depend on any
condition (`leaves_names`).

The *frontier* of a situation is a number of environments, the oldest ones.  A declaration is only
executed in an environment past the frontier, so that the names before it stay.
-/

namespace Lox

def FunctionDecl.Grammatical (d : FunctionDecl) : Prop := ∀ n ∈ d.nodes, n.Grammatical

structure Heap.Grammatical (h : Heap) : Prop where
  function : ∀ (i : Nat) f, h.functions[i]? = some f → f.declaration.Grammatical
  method : ∀ (i : Nat) c name f, h.classes[i]? = some c → c.methods.get? name = some f →
    f.declaration.Grammatical

/-- The first `frontier` environments hold the same names. -/
def Forest.SameNames (frontier : Nat) (f f' : Forest) : Prop :=
  ∀ e : EnvironmentId, e.index < frontier → ∀ name, (f'.own? e name).isSome = (f.own? e name).isSome

/-- Does the statement or expression declare no name where it stands? -/
def Node.isPlain : Node → Bool
  | .expr _ => true
  | .stmt s => s.isPlain

theorem Node.self_mem_nodes (n : Node) : n ∈ n.nodes := by
  cases n with
  | expr e => exact Expr.self_mem_nodes e
  | stmt st => exact Stmt.self_mem_nodes st

/-- The machine after a node was evaluated or executed, however that ended. -/
def Node.leaves (fuel : Nat) : Node → Machine → Machine
  | .expr e => (evaluate fuel e).leaves
  | .stmt s => (execute fuel s).leaves

/-- Whatever comes of the node, every environment that is there holds the same names afterwards. -/
def Node.KeepsNames (n : Node) (m : Machine) : Prop :=
  ∀ fuel, Forest.SameNames m.heap.forest.environments.size m.heap.forest
    (n.leaves fuel m).heap.forest

namespace Forest

variable {frontier : Nat} {f f' f'' : Forest}

theorem SameNames.refl (f : Forest) : SameNames frontier f f := fun _ _ _ => rfl

theorem SameNames.trans (h : SameNames frontier f f') (h' : SameNames frontier f' f'') :
    SameNames frontier f f'' :=
  fun e he name => (h' e he name).trans (h e he name)

theorem sameNames_grow (le : frontier ≤ f.environments.size) (outer : Option EnvironmentId) :
    SameNames frontier f (f.grow outer) := by
  intro e he name
  rw [own?, own?, f.environment?_grow_of_lt outer (Nat.lt_of_lt_of_le he le)]

/-- A definition past the frontier. -/
theorem sameNames_define_of_le {id : EnvironmentId} (past : frontier ≤ id.index) (name : String)
    (value : Value) : SameNames frontier f (f.define id name value) := by
  intro e he other
  have ne : e ≠ id := by
    rintro rfl
    exact Nat.not_lt_of_le past he
  rw [f.own?_define_of_ne value (.inl ne)]

/-- A definition that overwrites a value. -/
theorem sameNames_define_of_held {id : EnvironmentId} {name : String}
    (held : (f.own? id name).isSome) (value : Value) :
    SameNames frontier f (f.define id name value) := by
  intro e _ other
  by_cases same : e = id ∧ other = name
  · obtain ⟨rfl, rfl⟩ := same
    rw [held]
    exact f.isSome_own?_define e e other other value held
  · rw [f.own?_define_of_ne value (by tauto)]

theorem sameNames_defineAll {id : EnvironmentId} (past : frontier ≤ id.index)
    (entries : List (String × Value)) : SameNames frontier f (f.defineAll id entries) := by
  induction entries generalizing f with
  | nil => exact .refl f
  | cons entry entries ih => exact (sameNames_define_of_le past entry.1 entry.2).trans ih

theorem isSome_own?_of_holder? {id holder : EnvironmentId} {name : String}
    (found : f.holder? id name = some holder) : (f.own? holder name).isSome := by
  rw [holder?] at found
  generalize id.index + 1 = bound at found
  induction bound generalizing id with
  | zero => cases found
  | succ bound ih =>
      rw [holderWithin?] at found
      split at found
      · exact Option.some.inj found ▸ ‹_›
      · obtain ⟨outer, -, found⟩ := Option.bind_eq_some_iff.1 found
        exact ih found

theorem isSome_own?_of_holderAt? {id holder : EnvironmentId} {distance : Nat} {name : String}
    (found : f.holderAt? id distance name = some holder) : (f.own? holder name).isSome :=
  (Option.filter_eq_some_iff.1 found).2

end Forest

namespace Declaring

open Run Discipline

/-- A machine whose functions are as the grammar promises, and a number of its environments. -/
structure Situation where
  machine : Machine
  frontier : Nat
  le : frontier ≤ machine.heap.forest.environments.size
  grammatical : machine.heap.Grammatical

/-- Executions leave the names before the frontier as they are. -/
def discipline : Discipline where
  Situation := Situation
  machine := Situation.machine
  Later s t := t.frontier = s.frontier ∧ t.machine.current = s.machine.current ∧
    Forest.SameNames s.frontier s.machine.heap.forest t.machine.heap.forest
  refl _ := ⟨rfl, rfl, .refl _⟩
  trans first second := ⟨second.1.trans first.1, second.2.1.trans first.2.1,
    first.2.2.trans (first.1 ▸ second.2.2)⟩
  enter s id := ⟨{ s.machine with current := id }, s.frontier, s.le, s.grammatical⟩
  machine_enter _ _ := rfl
  leave later := ⟨later.1, rfl, later.2.2⟩
  Admits s n := (∀ k ∈ n.nodes, k.Grammatical) ∧
    (n.isPlain = false → s.frontier ≤ s.machine.current.index)
  Calls _ f := f.declaration.Grammatical

variable {s : Situation} {α : Type}

theorem keeps {x : Run α} {a : α} {m : Machine} {Q : Situation → α → Prop}
    (ran : x s.machine = .ok a m) (le : s.frontier ≤ m.heap.forest.environments.size)
    (grammatical : m.heap.Grammatical) (current : m.current = s.machine.current)
    (names : Forest.SameNames s.frontier s.machine.heap.forest m.heap.forest)
    (q : Q ⟨m, s.frontier, le, grammatical⟩ a) : discipline.Keeps s x Q := by
  change discipline.Ends s Q (x s.machine)
  rw [ran]
  exact Discipline.Ends.ok (D := discipline) (t := ⟨m, s.frontier, le, grammatical⟩)
    ⟨rfl, current, names⟩ q

theorem keeps_forest {x : Run α} {a : α} {f : Forest} {Q : Situation → α → Prop}
    (ran : x s.machine =
      .ok a { s.machine with heap := { s.machine.heap with forest := f } })
    (le : s.machine.heap.forest.environments.size ≤ f.environments.size)
    (names : Forest.SameNames s.frontier s.machine.heap.forest f)
    (q : ∀ le grammatical, Q ⟨{ s.machine with heap := { s.machine.heap with forest := f } },
      s.frontier, le, grammatical⟩ a) : discipline.Keeps s x Q := by
  have grammatical : Heap.Grammatical { s.machine.heap with forest := f } :=
    ⟨s.grammatical.function, s.grammatical.method⟩
  exact keeps ran (Nat.le_trans s.le le) grammatical rfl names (q _ _)

/-! ### Small steps -/

theorem define_of_le {id : EnvironmentId} (past : s.frontier ≤ id.index) (name : String)
    (value : Value) : discipline.Keeps s (define id name value) fun _ _ => True :=
  keeps_forest rfl (Nat.le_of_eq (Forest.size_define _ _ _ _).symm)
    (Forest.sameNames_define_of_le past name value) fun _ _ => trivial

theorem define_of_held {id : EnvironmentId} {name : String}
    (held : (s.machine.heap.forest.own? id name).isSome) (value : Value) :
    discipline.Keeps s (define id name value) fun _ _ => True :=
  keeps_forest rfl (Nat.le_of_eq (Forest.size_define _ _ _ _).symm)
    (Forest.sameNames_define_of_held held value) fun _ _ => trivial

theorem defineAll {id : EnvironmentId} (past : s.frontier ≤ id.index)
    (entries : List (String × Value)) :
    discipline.Keeps s (modifyForest (·.defineAll id entries)) fun _ _ => True :=
  keeps_forest rfl (Nat.le_of_eq (Forest.size_defineAll _ _ _).symm)
    (Forest.sameNames_defineAll past entries) fun _ _ => trivial

theorem defineHere (past : s.frontier ≤ s.machine.current.index) (name : String) (value : Value) :
    discipline.Keeps s (defineHere name value) fun _ _ => True := by
  apply Keeps.get
  exact define_of_le past name value

/-- A new environment is past the frontier. -/
theorem newEnvironment (outer : EnvironmentId) :
    discipline.Keeps s (newEnvironment outer) fun t id => t.frontier ≤ id.index :=
  keeps_forest rfl (by simp [Forest.grow]) (Forest.sameNames_grow s.le (some outer))
    fun _ _ => s.le

theorem newFunction {f : Function} (made : f.declaration.Grammatical) :
    discipline.Keeps s (newFunction f) fun _ _ => True := by
  refine keeps rfl s.le ⟨fun i g found => ?_, s.grammatical.method⟩ rfl (.refl _) trivial
  rw [Array.getElem?_push] at found
  split at found
  · exact Option.some.inj found ▸ made
  · exact s.grammatical.function i g found

theorem newClass {c : Class}
    (made : ∀ name f, c.methods.get? name = some f → f.declaration.Grammatical) :
    discipline.Keeps s (newClass c) fun _ _ => True := by
  refine keeps rfl s.le ⟨s.grammatical.function, fun i c' name f found own => ?_⟩ rfl (.refl _)
    trivial
  rw [Array.getElem?_push] at found
  split at found
  · exact made name f (Option.some.inj found ▸ own)
  · exact s.grammatical.method i c' name f found own

theorem newObject (id : ClassId) : discipline.Keeps s (newObject id) fun _ _ => True :=
  keeps rfl s.le ⟨s.grammatical.function, s.grammatical.method⟩ rfl (.refl _) trivial

theorem bindMethod {f : Function} (made : f.declaration.Grammatical) (receiver : ObjectId) :
    discipline.Keeps s (bindMethod f receiver) fun _ g => g.declaration.Grammatical := by
  apply (newEnvironment f.closure).bind
  intro t environment _ past
  apply (define_of_le past receiverName (.object receiver)).bind
  intro u _ _ _
  exact .pure made

theorem boundMethod {f : Function} (made : f.declaration.Grammatical) (receiver : ObjectId) :
    discipline.Keeps s (boundMethod f receiver) fun _ _ => True :=
  .boundMethod (bindMethod made receiver) fun _ _ _ made => newFunction made

/-- What is called as a method was declared as one. -/
theorem method? {id : ClassId} {name : String} {f : Function}
    (found : s.machine.heap.method? id name = some f) : f.declaration.Grammatical := by
  obtain ⟨_, -, c, key, hc, own⟩ := Heap.exists_of_method? found
  exact s.grammatical.method _ c key f hc own

theorem overwrite (site : Site) (name : Token) (value : Value) :
    discipline.Keeps s (overwrite site name value) fun _ _ => True := by
  apply Keeps.overwrite
  intro holder found
  refine define_of_held ?_ value
  rw [Machine.holderAt?] at found
  split at found
  · exact Forest.isSome_own?_of_holderAt? found
  · exact Forest.isSome_own?_of_holder? found

theorem methodEnvironment (above : Option ClassId) :
    discipline.Keeps s (methodEnvironment above) fun _ _ => True := by
  apply Keeps.get
  cases above with
  | none => exact .pure trivial
  | some id =>
      apply (newEnvironment s.machine.current).bind
      intro t environment _ past
      apply (define_of_le past superName (.class id)).bind
      intro u _ _ _
      exact .pure trivial

theorem declareClass (past : s.frontier ≤ s.machine.current.index) (name : Token)
    (above : Option ClassId) {methods : List FunctionDecl}
    (made : ∀ d ∈ methods, d.Grammatical) :
    discipline.Keeps s (declareClass name above methods) fun _ _ => True := by
  apply (defineHere past name.lexeme .nil).bind
  intro t _ _ _
  apply (methodEnvironment above).bind
  intro u closure _ _
  have table (key : String) (f : Function)
      (found : (methodTable closure methods).get? key = some f) : f.declaration.Grammatical := by
    obtain ⟨d, hd, same, -⟩ := mem_of_methodTable found
    exact same ▸ made d hd
  apply (newClass (c := ⟨name.lexeme, above, methodTable closure methods⟩) table).bind
  intro v id _ _
  apply Keeps.get
  split
  · rename_i holder found
    exact define_of_held (Forest.isSome_own?_of_holder? found) (.class id)
  · exact .raise .undefinedVariable name

/-- The statements of a block or body may start in an environment past the frontier. -/
theorem admits_of_le {s : Situation} {id : EnvironmentId} (past : s.frontier ≤ id.index)
    {body : List Stmt} (made : ∀ n ∈ Stmt.nodesAll body, n.Grammatical) :
    ∀ st ∈ body, discipline.Admits (discipline.enter s id) (.stmt st) := by
  refine fun st hs => ⟨fun k hk => made k ?_, fun _ => past⟩
  rw [Stmt.nodesAll_eq_flatMap]
  exact List.mem_flatMap.2 ⟨st, hs, hk⟩

/-- What is inside a node that is no declaration is none, or is inside a block of its own. -/
theorem plain_of_mem_parts {n : Node} (formed : n.WellFormed) : ∀ n' ∈ n.parts, n'.isPlain := by
  cases n with
  | expr e => cases e <;> simp [Node.parts, Node.isPlain]
  | stmt st =>
      cases st with
      | branch condition consequence alternative =>
          cases alternative with
          | none => simpa [Node.parts, Node.isPlain, Node.WellFormed] using formed
          | some alternative => simpa [Node.parts, Node.isPlain, Node.WellFormed] using formed
      | «while» condition body => simpa [Node.parts, Node.isPlain, Node.WellFormed] using formed
      | var name e | «return» keyword e => cases e <;> simp [Node.parts, Node.isPlain]
      | «class» name e methods => cases e <;> simp [Node.parts, Node.isPlain]
      | _ => simp [Node.parts, Node.isPlain]

/-- The small steps of execution leave the names before the frontier as they are. -/
theorem respected : discipline.Respected where
  later {s t n} later admitted := ⟨admitted.1, fun declares => by
    rw [later.1, later.2.1]
    exact admitted.2 declares⟩
  parts {s n} admitted n' mem := by
    refine ⟨fun k hk => admitted.1 k (n.nodes_of_mem_parts n' mem k hk), fun declares => ?_⟩
    have plain := plain_of_mem_parts (admitted.1 n n.self_mem_nodes).formed n' mem
    rw [plain] at declares
    cases declares
  overwrite {_ site name _} _ value := overwrite site name value
  property _ id := .property (fun _ _ _ _ => trivial) fun _ f _ found =>
    boundMethod (method? found) id
  setField {s _ name _} _ id value :=
    keeps rfl s.le ⟨s.grammatical.function, s.grammatical.method⟩ rfl (.refl _) trivial
  superMethod _ := .superMethod fun _ _ id f _ _ found => boundMethod (method? found) id
  define {_ name _} admitted value := defineHere (admitted.2 rfl) name.lexeme value
  block {s ss} admitted := by
    refine (newEnvironment s.machine.current).imp fun t id _ past => ?_
    exact admits_of_le past fun n hn => admitted.1 n (by simp [Node.nodes, Stmt.nodes, hn])
  declareFunction {s d} admitted := by
    have made : d.Grammatical := fun n hn => admitted.1 n (by simp [Node.nodes, Stmt.nodes, hn])
    refine (newFunction made).imp fun t id later _ => ?_
    refine defineHere ?_ d.name.lexeme (.function id)
    rw [later.1, later.2.1]
    exact admitted.2 rfl
  declareClass {s name clause ds} admitted above := by
    refine declareClass (admitted.2 rfl) name above fun d hd n hn => admitted.1 n ?_
    have inside : n ∈ Stmt.nodesOfMethods ds := by
      rw [Stmt.nodesOfMethods_eq_flatMap]
      exact List.mem_flatMap.2 ⟨d, hd, hn⟩
    cases clause <;> simp [Node.nodes, Stmt.nodes, inside]
  callee {s f id} found := s.grammatical.function id.index f found
  object _ id := newObject id
  initializer {s id f} found := (newObject id).imp fun _ receiver _ _ =>
    bindMethod (method? found) receiver
  call {s f} made arguments := by
    refine (newEnvironment f.closure).imp fun t id _ past => ?_
    refine (defineAll past _).imp fun u _ later _ => ?_
    exact admits_of_le (later.1 ▸ past) fun n hn => made n (f.declaration.nodes_eq ▸ hn)
  clock s := keeps rfl s.le s.grammatical rfl (.refl _) trivial
  write s piece := by
    apply Keeps.get
    split
    · exact keeps rfl s.le s.grammatical rfl (.refl _) trivial
    · exact .error _ (discipline.refl s)

/-- What is no declaration leaves the names of all environments as they are. -/
theorem leaves_names {m : Machine} (grammatical : m.heap.Grammatical) {n : Node}
    (formed : ∀ k ∈ n.nodes, k.Grammatical) (plain : n.isPlain) : n.KeepsNames m := by
  intro fuel
  let here : Situation := ⟨m, m.heap.forest.environments.size, Nat.le_refl _, grammatical⟩
  have admitted : discipline.Admits here n := ⟨formed, fun declares => by simp [plain] at declares⟩
  have law (alarm : Halt) := respected.besides alarm fuel
  cases n with
  | expr e =>
      obtain ⟨t, later, same⟩ :=
        (Keeps.of_beside (s := here) fun alarm => (law alarm).1 admitted).exists_leaves
      rw [Node.leaves, ← show _ = (evaluate fuel e).leaves m from same]
      exact later.2.2
  | stmt st =>
      obtain ⟨t, later, same⟩ :=
        (Keeps.of_beside (s := here) fun alarm => (law alarm).2 admitted).exists_leaves
      rw [Node.leaves, ← show _ = (execute fuel st).leaves m from same]
      exact later.2.2

/-- Statements as the grammar promises them may start in any environment. -/
theorem admits_grammatical {m : Machine} (grammatical : m.heap.Grammatical) {ss : List Stmt}
    (formed : ∀ n ∈ Stmt.nodesAll ss, n.Grammatical) :
    ∀ st ∈ ss, discipline.Admits ⟨m, 0, Nat.zero_le _, grammatical⟩ (.stmt st) := by
  refine fun st hs => ⟨fun k hk => formed k ?_, fun _ => Nat.zero_le _⟩
  rw [Stmt.nodesAll_eq_flatMap]
  exact List.mem_flatMap.2 ⟨st, hs, hk⟩

/-- Executing statements as the grammar promises them makes functions of this kind only. -/
theorem grammatical_leaves {m : Machine} (grammatical : m.heap.Grammatical) {ss : List Stmt}
    (formed : ∀ n ∈ Stmt.nodesAll ss, n.Grammatical) (fuel : Nat) :
    ((executeAll fuel ss).leaves m).heap.Grammatical := by
  have ends := respected.ends fuel (admits_grammatical grammatical formed)
  change discipline.Ends _ _ (executeAll fuel ss m) at ends
  rw [Run.leaves]
  generalize executeAll fuel ss m = r at ends
  cases ends with
  | @ok t _ _ _ => exact t.grammatical
  | @error t _ _ => exact t.grammatical

/-- Whenever a node starts it is as the grammar promises, and if it is no declaration, it declares
nothing. -/
theorem throughout_grammatical {m : Machine} (grammatical : m.heap.Grammatical) {ss : List Stmt}
    (formed : ∀ n ∈ Stmt.nodesAll ss, n.Grammatical) {P : Node → Machine → Prop} {fuel : Nat}
    (holds : Throughout P fuel ss m) :
    Throughout (fun n m' => P n m' ∧ n.Grammatical ∧ (n.isPlain → n.KeepsNames m')) fuel ss m := by
  refine respected.throughout (fun {s n} admitted held => ⟨held, ?_, fun plain => ?_⟩)
    (admits_grammatical grammatical formed) holds
  · exact admitted.1 n n.self_mem_nodes
  · exact leaves_names s.grammatical admitted.1 plain

end Declaring

end Lox
