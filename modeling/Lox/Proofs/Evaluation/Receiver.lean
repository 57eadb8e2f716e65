import Lox.Proofs.Evaluation.Discipline
import Lox.Proofs.Heap.Receiver

/-!
# Receivers in executions

Executions keep the books of receivers.  An `Account` is a machine with its books; a node may start
in it if it is a part of all methods that were bound outward from the current environment, and if
the current environment itself holds neither a receiver nor a superclass.

Two steps make entries: a method is bound to an object of its class or of a class below it
(`Account.bindMethod`), and methods are declared in an environment of their own if their class has a
superclass (`Account.methodEnvironment`).
-/

namespace Lox

/-- A machine whose receivers are known. -/
structure Account where
  machine : Machine
  entry : EnvironmentId → Option Receiver
  books : Books machine.heap entry

namespace Account

open Run Discipline

/-- A node that may start. -/
structure Admits (s : Account) (n : Node) : Prop where
  covers : Covers s.machine.heap.forest s.entry s.machine.current n.nodes
  receiver : s.machine.heap.forest.own? s.machine.current receiverName = none
  super : s.machine.heap.forest.own? s.machine.current superName = none
  sound : ∀ n' ∈ n.nodes, n'.Sound

def enter (s : Account) (id : EnvironmentId) : Account :=
  { s with machine := { s.machine with current := id } }

def discipline : Discipline where
  Situation := Account
  machine := machine
  Later s t := Follows s.machine.heap s.entry t.machine.heap t.entry ∧
    t.machine.current = s.machine.current
  refl _ := ⟨.refl _ _, rfl⟩
  trans first second := ⟨first.1.trans second.1, second.2.trans first.2⟩
  enter := enter
  machine_enter _ _ := rfl
  leave later := ⟨later.1, rfl⟩
  Admits := Admits
  Calls s f := Placed s.machine.heap.forest s.entry f ∧ Rebound s.entry f

variable {s t : Account} {α : Type}

theorem keeps {x : Run α} {Q : Account → α → Prop} {a : α} {m : Machine}
    {entry : EnvironmentId → Option Receiver} (ran : x s.machine = .ok a m)
    (books : Books m.heap entry) (follows : Follows s.machine.heap s.entry m.heap entry)
    (current : m.current = s.machine.current) (q : Q ⟨m, entry, books⟩ a) :
    discipline.Keeps s x Q := by
  change discipline.Ends s Q (x s.machine)
  rw [ran]
  exact Discipline.Ends.ok (D := discipline) (t := ⟨m, entry, books⟩) ⟨follows, current⟩ q

theorem Admits.later {n : Node} (later : discipline.Later s t) (admits : s.Admits n) :
    t.Admits n where
  covers := by
    rw [later.2]
    exact admits.covers.later s.books later.1
  receiver := by
    rw [later.2, later.1.receiver _ admits.covers.made]
    exact admits.receiver
  super := by
    rw [later.2, later.1.super _ admits.covers.made]
    exact admits.super
  sound := admits.sound

theorem Admits.part {n n' : Node} (admits : s.Admits n) (sub : ∀ k ∈ n'.nodes, k ∈ n.nodes) :
    s.Admits n' where
  covers := admits.covers.mono sub
  receiver := admits.receiver
  super := admits.super
  sound k hk := admits.sound k (sub k hk)

structure Binds (s : Account) (r : Receiver) (g : Function) : Prop where
  placed : Placed s.machine.heap.forest s.entry g
  entered : s.entry g.closure = some r
  method : g = { r.method with closure := g.closure }

theorem Binds.calls {r : Receiver} {g : Function} (binds : s.Binds r g) : discipline.Calls s g :=
  ⟨binds.placed, fun _ => ⟨r, binds.entered, binds.method⟩⟩

/-- An object as it is made: there was none with its number. -/
structure Makes (s t : Account) (id : ClassId) (receiver : ObjectId) : Prop where
  new : s.machine.heap.objects[receiver.index]? = none
  made : ∃ o, t.machine.heap.objects[receiver.index]? = some o ∧ o.classId = id

theorem Admits.self {n : Node} (admits : s.Admits n) : n.Sound := by
  apply admits.sound
  cases n with
  | expr e => exact Expr.self_mem_nodes e
  | stmt st => exact Stmt.self_mem_nodes st

/-! ### Small steps -/

theorem define (id : EnvironmentId) {name : String} (ordinary : Ordinary name) (value : Value) :
    discipline.Keeps s (define id name value) fun _ _ => True := by
  have kept := s.books.withForest (s.machine.heap.forest.sameWords_define id ordinary value)
  exact keeps rfl kept.1 kept.2 rfl trivial

theorem defineHere {name : String} (ordinary : Ordinary name) (value : Value) :
    discipline.Keeps s (defineHere name value) fun _ _ => True := by
  apply Keeps.get
  exact define s.machine.current ordinary value

theorem newEnvironment {outer : EnvironmentId}
    (made : outer.index < s.machine.heap.forest.environments.size) :
    discipline.Keeps s (newEnvironment outer) fun t id =>
      t.machine.heap.forest.own? id receiverName = none ∧
        t.machine.heap.forest.own? id superName = none ∧
        ∀ ns, Covers s.machine.heap.forest s.entry outer ns →
          Covers t.machine.heap.forest t.entry id ns := by
  have grown := s.machine.heap.forest.grown_grow outer
  have opens := Opens.none s.books outer
  refine keeps rfl (s.books.grow made grown opens) (grown.follows opens) rfl ?_
  refine ⟨grown.receiver, grown.super, fun ns covers => ?_⟩
  refine covers.grow s.books grown opens fun r known => ?_
  exact absurd rfl (Forest.ne_next_of_made (s.books.made_of_entry known))

theorem newFunction {f : Function} (calls : discipline.Calls s f) :
    discipline.Keeps s (newFunction f) fun _ _ => True := by
  have kept := s.books.pushFunction calls.1 calls.2
  exact keeps rfl kept.1 kept.2 rfl trivial

theorem newObject (id : ClassId) :
    discipline.Keeps s (newObject id) fun t receiver => s.Makes t id receiver := by
  have kept := s.books.withObjects (s.machine.heap.objects.push ⟨id, []⟩) fun i o found => by
    have inside : i < s.machine.heap.objects.size := (Array.getElem?_eq_some_iff.1 found).1
    rw [Array.getElem?_push, if_neg (Nat.ne_of_lt inside)]
    exact ⟨o, found, rfl⟩
  refine keeps rfl kept.1 kept.2 rfl ⟨?_, ⟨id, []⟩, ?_, rfl⟩
  · exact Array.getElem?_eq_none (Nat.le_refl _)
  · exact Array.getElem?_push_size

theorem setField (id : ObjectId) (name : String) (value : Value) :
    discipline.Keeps s (setField id name value) fun _ _ => True := by
  have kept := s.books.withObjects (s.machine.heap.objects.modify id.index fun o =>
      { o with fields := o.fields.set name value }) fun i o found => by
    rw [Array.getElem?_modify]
    split
    · rw [found]
      exact ⟨_, rfl, rfl⟩
    · exact ⟨o, found, rfl⟩
  exact keeps rfl kept.1 kept.2 rfl trivial

theorem write (piece : String) : discipline.Keeps s (write piece) fun _ _ => True := by
  apply Keeps.get
  split
  · exact keeps rfl s.books (.refl _ _) rfl trivial
  · exact .error _ (discipline.refl s)

/-- A method is bound to an object whose class has it. -/
theorem bindMethod {f : Function} {receiver : ObjectId} {holder : ClassId} {o : Object}
    (owns : s.machine.heap.Owns holder f)
    (found : s.machine.heap.objects[receiver.index]? = some o)
    (below : s.machine.heap.Below o.classId holder) :
    discipline.Keeps s (bindMethod f receiver) fun t g => t.Binds ⟨holder, f, receiver⟩ g := by
  have placed := s.books.placed_of_owns owns
  have grown := (s.machine.heap.forest.grown_grow f.closure).define receiverName (.object receiver)
  have opens : Opens s.machine.heap s.entry
      (Function.update s.entry s.machine.heap.forest.next (some ⟨holder, f, receiver⟩)) f.closure
      (some (.object receiver)) := {
    old := fun e ne => Function.update_of_ne ne _ _
    new := Or.inr ⟨_, Function.update_self _ _ _, rfl, rfl, owns, o, found, below⟩ }
  refine keeps rfl (s.books.grow placed.covers.made grown opens) (grown.follows opens) rfl ?_
  refine ⟨⟨placed.covers.grow s.books grown opens fun r known => ?_, placed.sound,
    placed.parameters⟩, Function.update_self _ _ _, rfl⟩
  rw [Function.update_self] at known
  obtain rfl := Option.some.inj known
  exact fun n hn => hn

theorem boundMethod {f : Function} {receiver : ObjectId} {holder : ClassId} {o : Object}
    (owns : s.machine.heap.Owns holder f)
    (found : s.machine.heap.objects[receiver.index]? = some o)
    (below : s.machine.heap.Below o.classId holder) :
    discipline.Keeps s (boundMethod f receiver) fun _ _ => True :=
  .boundMethod (bindMethod owns found below) fun _ _ _ binds => newFunction binds.calls

theorem property (id : ObjectId) (name : Token) :
    discipline.Keeps s (property id name) fun _ _ => True := by
  apply Keeps.property
  · exact fun _ _ _ _ => trivial
  · intro o f object found
    obtain ⟨holder, below, owns⟩ := Heap.exists_of_method? found
    exact boundMethod owns object below

theorem superMethod (site : Site) (keyword method : Token) :
    discipline.Keeps s (superMethod site keyword method) fun _ _ => True := by
  apply Keeps.superMethod
  intro inner above id f super receiver found
  obtain ⟨holder, below, owns⟩ := Heap.exists_of_method? found
  obtain ⟨r, above', finds⟩ :=
    s.books.finds (Option.isSome_of_eq_some receiver) (Option.isSome_of_eq_some super)
  obtain rfl : above = above' := by simpa using super.symm.trans finds.super
  obtain rfl : id = r.object := by simpa using receiver.symm.trans finds.receiver
  obtain ⟨_, _, _, bound⟩ := finds.known
  obtain ⟨o, object, member⟩ := bound.object
  obtain ⟨c, declared, superclass⟩ := finds.superclass
  exact boundMethod owns object (member.trans (.step declared superclass below))

/-! ### Calls and declarations -/

theorem newReceiver {id : ClassId} {f : Function}
    (found : s.machine.heap.method? id initializerName = some f) :
    discipline.Keeps s (Run.newObject id) fun t receiver =>
      s.Makes t id receiver ∧ discipline.Keeps t (Run.bindMethod f receiver) fun u g =>
        ∃ holder, u.Binds ⟨holder, f, receiver⟩ g := by
  apply (newObject id).imp
  intro t receiver later makes
  obtain ⟨o, object, rfl⟩ := makes.made
  obtain ⟨holder, below, c, name, declared, own⟩ := Heap.exists_of_method? found
  have owns : t.machine.heap.Owns holder f := ⟨c, name, later.1.classes _ _ declared, own⟩
  exact ⟨makes, (bindMethod owns object (below.mono later.1.classes)).imp
    fun _ _ _ binds => ⟨holder, binds⟩⟩

theorem block {ss : List Stmt} (admits : s.Admits (.stmt (.block ss))) :
    discipline.Keeps s (Run.newEnvironment s.machine.current) fun t id =>
      ∀ st ∈ ss, (t.enter id).Admits (.stmt st) := by
  apply (newEnvironment admits.covers.made).imp
  intro t id _ new
  obtain ⟨receiver, super, covers⟩ := new
  intro st hst
  have sub : ∀ n ∈ st.nodes, n ∈ (Node.stmt (.block ss)).nodes := by
    intro n hn
    rw [Node.nodes, Stmt.nodes, Stmt.nodesAll_eq_flatMap, List.mem_append, List.mem_flatMap]
    exact Or.inl ⟨st, hst, hn⟩
  exact ⟨covers _ (admits.covers.mono sub), receiver, super, fun n hn => admits.sound n (sub n hn)⟩

theorem call {f : Function} (calls : discipline.Calls s f)
    (arguments : List Value) :
    discipline.Keeps s (Run.newEnvironment f.closure) fun t id =>
      discipline.Keeps t (modifyForest
        (·.defineAll id ((f.declaration.parameters.map Token.lexeme).zip arguments))) fun u _ =>
        ∀ st ∈ f.declaration.body, (u.enter id).Admits (.stmt st) := by
  obtain ⟨placed, -⟩ := calls
  apply (newEnvironment placed.covers.made).imp
  intro t id _ new
  obtain ⟨receiver, super, covers⟩ := new
  have ordinary : ∀ p ∈ (f.declaration.parameters.map Token.lexeme).zip arguments,
      Ordinary p.1 := by
    intro p hp
    obtain ⟨name, hn, same⟩ := List.mem_map.1 (List.of_mem_zip hp).1
    rw [← same]
    exact placed.parameters name hn
  have same := t.machine.heap.forest.sameWords_defineAll id ordinary
  have kept := t.books.withForest same
  refine keeps rfl kept.1 kept.2 rfl fun st hst => ?_
  have sub : ∀ n ∈ st.nodes, n ∈ f.declaration.nodes := by
    intro n hn
    rw [f.declaration.nodes_eq, Stmt.nodesAll_eq_flatMap, List.mem_flatMap]
    exact ⟨st, hst, hn⟩
  exact {
    covers := ((covers _ (placed.covers.mono sub))).later t.books kept.2
    receiver := (same.receiver id).trans receiver
    super := (same.super id).trans super
    sound := fun n hn => placed.sound n (sub n hn) }

theorem declareFunction {d : FunctionDecl} (admits : s.Admits (.stmt (.function d))) :
    discipline.Keeps s (Run.newFunction ⟨d, s.machine.current, false⟩) fun t id =>
      discipline.Keeps t (Run.defineHere d.name.lexeme (.function id)) fun _ _ => True := by
  have ordinary := admits.self.ordinary_of_function
  have sub : ∀ n ∈ d.nodes, n ∈ (Node.stmt (.function d)).nodes := by
    intro n hn
    exact List.mem_append_left _ hn
  have placed : Placed s.machine.heap.forest s.entry ⟨d, s.machine.current, false⟩ := {
    covers := admits.covers.mono sub
    sound := fun n hn => admits.sound n (sub n hn)
    parameters := fun p hp => ordinary p (List.mem_cons_of_mem _ hp) }
  apply (newFunction ⟨placed, fun flagged => by cases flagged⟩).imp
  intro t id _ _
  exact defineHere (ordinary d.name List.mem_cons_self) (.function id)

/-- Methods with a superclass are declared in an environment that no other class uses. -/
theorem methodEnvironment {n : Node} (admits : s.Admits n) (above : Option ClassId) :
    discipline.Keeps s (methodEnvironment above) fun t closure =>
      (∀ ns, Covers s.machine.heap.forest s.entry s.machine.current ns →
        Covers t.machine.heap.forest t.entry closure ns) ∧
      t.machine.heap.forest.own? closure superName = above.map .class ∧
      ((t.machine.heap.forest.own? closure superName).isSome →
        ∀ id g, t.machine.heap.Owns id g → g.closure ≠ closure) := by
  apply Keeps.get
  cases above with
  | none =>
      refine Keeps.pure ⟨fun ns covers => covers, admits.super, fun held => ?_⟩
      rw [show s.machine.heap.forest.own? (discipline.machine s).current superName = none from
        admits.super] at held
      cases held
  | some id =>
      have grown :=
        (s.machine.heap.forest.grown_grow s.machine.current).define superName (.class id)
      have opens := Opens.none s.books s.machine.current
      refine keeps rfl (s.books.grow admits.covers.made grown opens) (grown.follows opens) rfl ?_
      refine ⟨fun ns covers => covers.grow s.books grown opens fun r known => ?_, grown.super,
        fun _ id g owns => ?_⟩
      · exact absurd rfl (Forest.ne_next_of_made (s.books.made_of_entry known))
      · exact Forest.ne_next_of_made (s.books.placed_of_owns owns).covers.made

theorem declareClass {name : Token} {clause : Option Expr} {ds : List FunctionDecl}
    (admits : s.Admits (.stmt (.class name clause ds))) (above : Option ClassId) :
    discipline.Keeps s (declareClass name above ds) fun _ _ => True := by
  obtain ⟨ordinary, parameters⟩ := admits.self.ordinary_of_class
  have sub : ∀ d ∈ ds, ∀ n ∈ d.nodes, n ∈ (Node.stmt (.class name clause ds)).nodes := by
    intro d hd n hn
    cases clause <;>
      simp only [Node.nodes, Stmt.nodes, Stmt.nodesOfMethods_eq_flatMap, List.mem_append,
        List.mem_flatMap]
    · exact Or.inl ⟨d, hd, hn⟩
    · exact Or.inl (Or.inr ⟨d, hd, hn⟩)
  apply (defineHere ordinary .nil).bind
  intro t₁ _ later₁ _
  have admits₁ : t₁.Admits _ := admits.later later₁
  apply (methodEnvironment admits₁ above).bind
  intro t₂ closure later₂ new
  obtain ⟨covers, super, apart⟩ := new
  have methods : Methods t₂.machine.heap.forest t₂.entry
      ⟨name.lexeme, above, methodTable closure ds⟩ := {
    placed := fun key g found => by
      obtain ⟨d, hd, declaration, same⟩ := mem_of_methodTable found
      subst declaration
      refine ⟨?_, fun n hn => admits.sound n (sub _ hd n hn), parameters _ hd⟩
      rw [same]
      exact covers _ (admits₁.covers.mono (sub _ hd))
    named := fun key g found => isInitializer_of_methodTable found
    super := fun key g found => by
      obtain ⟨d, hd, -, same⟩ := mem_of_methodTable found
      rw [same]
      exact super }
  have kept := t₂.books.pushClass methods fun key g found held id g' owns => by
    obtain ⟨d, hd, -, same⟩ := mem_of_methodTable found
    rw [same] at held ⊢
    exact apart held id g' owns
  have made : discipline.Keeps t₂ (newClass ⟨name.lexeme, above, methodTable closure ds⟩)
      fun _ _ => True := keeps rfl kept.1 kept.2 rfl trivial
  apply made.bind
  intro t₃ id later₃ _
  apply Keeps.get
  cases (discipline.machine t₃).heap.forest.holder? (discipline.machine t₃).current name.lexeme with
  | none => exact .raise .undefinedVariable name
  | some holder => exact define holder ordinary (.class id)

theorem respected : discipline.Respected where
  later later admits := Admits.later later admits
  parts {_ n} admits n' part := Admits.part admits (n.nodes_of_mem_parts n' part)
  overwrite {_ site name e} admits value := by
    have self := Admits.self admits
    have ordinary : Ordinary name.lexeme :=
      .of_spelled self.formed (self.spelled name List.mem_cons_self)
    exact .overwrite fun holder _ => define holder ordinary value
  property {_ e name} _ id := property id name
  setField {_ e name e'} _ id value := setField id name.lexeme value
  superMethod {_ site keyword method} _ := superMethod site keyword method
  define {_ name e} admits value := by
    have self := Admits.self admits
    exact defineHere (.of_spelled self.formed (self.spelled name List.mem_cons_self)) value
  block admits := block admits
  declareFunction admits := declareFunction admits
  declareClass admits above := declareClass admits above
  callee {s f id} found := ⟨s.books.functions _ f found, s.books.initializers _ f found⟩
  object _ id := (newObject id).imp fun _ _ _ _ => trivial
  initializer found := (newReceiver found).imp fun _ _ _ bound =>
    bound.2.imp fun _ _ _ ⟨_, binds⟩ => binds.calls
  call calls arguments := call calls arguments
  clock s := keeps rfl s.books (.refl _ _) rfl trivial
  write _ piece := write piece

end Account

end Lox
