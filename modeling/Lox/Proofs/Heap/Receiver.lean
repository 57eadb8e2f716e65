import Lox.Proofs.Heap.Renaming
import Lox.Proofs.Scope.Settled

/-!
# Receivers of methods

When a method is bound to an object, a new environment around its body holds the object as the
receiver.  A `Receiver` says what was bound there: a method, the class in whose table it is, and the
object.  `Books` is the invariant that this is known of every environment that holds a receiver,
that the class of the object is the class of the method or one below it, and that the methods of a
class are closed over an environment that holds the superclass exactly if there is one.

The environments also say where code belongs: what is closed over the environment of a receiver, or
over one inside it, is a part of the method that was bound there (`Covers`).

Every small step of execution keeps the books, and what they say of an environment never changes
(`Follows`).
-/

namespace Lox

namespace Heap

/-- A class is another one or inherits from it. -/
inductive Below (h : Heap) : ClassId → ClassId → Prop
  | refl (id : ClassId) : Below h id id
  | step {id above top : ClassId} {c : Class} : h.classes[id.index]? = some c →
      c.superclass = some above → Below h above top → Below h id top

theorem Below.trans {h : Heap} {a b c : ClassId} (hab : h.Below a b) (hbc : h.Below b c) :
    h.Below a c := by
  induction hab with
  | refl => exact hbc
  | step found superclass _ ih => exact .step found superclass (ih hbc)

theorem Below.mono {h h' : Heap}
    (kept : ∀ (i : Nat) c, h.classes[i]? = some c → h'.classes[i]? = some c) {a b : ClassId}
    (below : h.Below a b) : h'.Below a b := by
  induction below with
  | refl id => exact .refl id
  | step found superclass _ ih => exact .step (kept _ _ found) superclass ih

def Owns (h : Heap) (id : ClassId) (f : Function) : Prop :=
  ∃ c name, h.classes[id.index]? = some c ∧ c.methods.get? name = some f

/-- A method that a class has is its own or that of a class above it. -/
theorem exists_of_method? {h : Heap} {id : ClassId} {name : String} {f : Function}
    (found : h.method? id name = some f) : ∃ holder, h.Below id holder ∧ h.Owns holder f := by
  rw [method?] at found
  generalize id.index + 1 = bound at found
  induction bound generalizing id with
  | zero => cases found
  | succ bound ih =>
      rw [methodWithin?] at found
      obtain ⟨c, hc, found⟩ := Option.bind_eq_some_iff.1 found
      cases own : c.methods.get? name with
      | some g =>
          simp only [own] at found
          obtain rfl := Option.some.inj found
          exact ⟨id, .refl id, c, name, hc, own⟩
      | none =>
          simp only [own] at found
          obtain ⟨above, superclass, found⟩ := Option.bind_eq_some_iff.1 found
          obtain ⟨holder, below, owns⟩ := ih found
          exact ⟨holder, .step hc superclass below, owns⟩

end Heap

/-- What holds of every method as it is declared holds of the methods of the class. -/
theorem forall_methodTable {P : String → Function → Prop} {closure : EnvironmentId}
    {ds : List FunctionDecl}
    (each : ∀ d ∈ ds, P d.name.lexeme ⟨d, closure, d.name.lexeme == initializerName⟩)
    {name : String} {g : Function} (found : (Run.methodTable closure ds).get? name = some g) :
    P name g := by
  suffices onto : ∀ table : Table Function,
      (∀ name (g : Function), table.get? name = some g → P name g) →
      ∀ ds' : List FunctionDecl, (∀ d ∈ ds', d ∈ ds) → ∀ name (g : Function),
        (ds'.foldl (fun table d => Table.set table d.name.lexeme
          ⟨d, closure, d.name.lexeme == initializerName⟩) table).get? name = some g →
        P name g from
    onto [] (fun _ _ h => by cases h) ds (fun _ hd => hd) name g found
  intro table entries ds' sub
  induction ds' generalizing table with
  | nil => exact entries
  | cons d ds' ih =>
      obtain ⟨head, rest⟩ := List.forall_mem_cons.1 sub
      refine ih _ ?_ rest
      intro name g found
      by_cases same : name = d.name.lexeme
      · rw [same, Table.get?_set_self] at found
        obtain rfl := Option.some.inj found
        exact same ▸ each d head
      · rw [Table.get?_set_of_ne _ _ same] at found
        exact entries name g found

/-- The methods of a class are those declared, all closed over one environment. -/
theorem mem_of_methodTable {closure : EnvironmentId} {ds : List FunctionDecl} {name : String}
    {g : Function} (found : (Run.methodTable closure ds).get? name = some g) :
    ∃ d ∈ ds, g.declaration = d ∧ g.closure = closure :=
  forall_methodTable (P := fun _ g => ∃ d ∈ ds, g.declaration = d ∧ g.closure = closure)
    (fun d hd => ⟨d, hd, rfl, rfl⟩) found

/-- The initializer of a class is its method with that name. -/
theorem isInitializer_of_methodTable {closure : EnvironmentId} {ds : List FunctionDecl}
    {name : String} {g : Function} (found : (Run.methodTable closure ds).get? name = some g) :
    g.isInitializer = (name == initializerName) :=
  forall_methodTable (P := fun name g => g.isInitializer = (name == initializerName))
    (fun _ _ => rfl) found

/-! ### Books -/

/-- What was bound in an environment. -/
structure Receiver where
  /-- The class in whose table the method is. -/
  holder : ClassId
  method : Function
  object : ObjectId

/-- An environment is as the binding of a method leaves it. -/
structure Receiver.Bound (r : Receiver) (h : Heap) (e : EnvironmentId) : Prop where
  held : h.forest.own? e receiverName = some (.object r.object)
  closure : h.forest.enclosing? e = some r.method.closure
  method : h.Owns r.holder r.method
  object : ∃ o, h.objects[r.object.index]? = some o ∧ h.Below o.classId r.holder

/-- Nodes that may run in an environment: they are parts of the methods that were bound outward from
it. -/
structure Covers (f : Forest) (entry : EnvironmentId → Option Receiver) (e : EnvironmentId)
    (ns : List Node) : Prop where
  made : e.index < f.environments.size
  inside : ∀ d e' r, f.ancestor? e d = some e' → entry e' = some r →
    ∀ n ∈ ns, n ∈ r.method.declaration.nodes

/-- A function whose body may run in its closure. -/
structure Placed (f : Forest) (entry : EnvironmentId → Option Receiver) (g : Function) : Prop where
  covers : Covers f entry g.closure g.declaration.nodes
  sound : ∀ n ∈ g.declaration.nodes, n.Sound
  parameters : ∀ p ∈ g.declaration.parameters, Ordinary p.lexeme

/-- An initializer is closed over the environment in which it was bound. -/
def Rebound (entry : EnvironmentId → Option Receiver) (g : Function) : Prop :=
  g.isInitializer = true →
    ∃ r, entry g.closure = some r ∧ g = { r.method with closure := g.closure }

structure Methods (f : Forest) (entry : EnvironmentId → Option Receiver) (c : Class) : Prop where
  placed : ∀ name g, c.methods.get? name = some g → Placed f entry g
  named : ∀ name g, c.methods.get? name = some g → g.isInitializer = (name == initializerName)
  super : ∀ name g, c.methods.get? name = some g →
    f.own? g.closure superName = c.superclass.map .class

/-- The receivers of a heap are known. -/
structure Books (h : Heap) (entry : EnvironmentId → Option Receiver) : Prop where
  closed : ∀ e outer, h.forest.enclosing? e = some outer →
    outer.index < h.forest.environments.size
  bound : ∀ e r, entry e = some r → r.Bound h e
  entered : ∀ e, (h.forest.own? e receiverName).isSome → (entry e).isSome
  functions : ∀ (i : Nat) g, h.functions[i]? = some g → Placed h.forest entry g
  initializers : ∀ (i : Nat) g, h.functions[i]? = some g → Rebound entry g
  methods : ∀ (i : Nat) c, h.classes[i]? = some c → Methods h.forest entry c
  /-- Classes with superclasses do not share environments. -/
  apart : ∀ id id' g g', h.Owns id g → h.Owns id' g' → g'.closure = g.closure →
    (h.forest.own? g.closure superName).isSome → id' = id

/-- What does not change in the course of an execution. -/
structure Follows (h : Heap) (entry : EnvironmentId → Option Receiver) (h' : Heap)
    (entry' : EnvironmentId → Option Receiver) : Prop where
  size : h.forest.environments.size ≤ h'.forest.environments.size
  enclosing : ∀ e : EnvironmentId, e.index < h.forest.environments.size →
    h'.forest.enclosing? e = h.forest.enclosing? e
  receiver : ∀ e : EnvironmentId, e.index < h.forest.environments.size →
    h'.forest.own? e receiverName = h.forest.own? e receiverName
  super : ∀ e : EnvironmentId, e.index < h.forest.environments.size →
    h'.forest.own? e superName = h.forest.own? e superName
  entry : ∀ e : EnvironmentId, e.index < h.forest.environments.size → entry' e = entry e
  classes : ∀ (i : Nat) c, h.classes[i]? = some c → h'.classes[i]? = some c
  objects : ∀ (i : Nat) o, h.objects[i]? = some o →
    ∃ o', h'.objects[i]? = some o' ∧ o'.classId = o.classId

variable {h h' h'' : Heap} {entry entry' entry'' : EnvironmentId → Option Receiver}

theorem Follows.refl (h : Heap) (entry : EnvironmentId → Option Receiver) :
    Follows h entry h entry where
  size := Nat.le_refl _
  enclosing _ _ := rfl
  receiver _ _ := rfl
  super _ _ := rfl
  entry _ _ := rfl
  classes _ _ found := found
  objects _ o found := ⟨o, found, rfl⟩

theorem Follows.trans (first : Follows h entry h' entry') (second : Follows h' entry' h'' entry'') :
    Follows h entry h'' entry'' where
  size := Nat.le_trans first.size second.size
  enclosing e made :=
    (second.enclosing e (Nat.lt_of_lt_of_le made first.size)).trans (first.enclosing e made)
  receiver e made :=
    (second.receiver e (Nat.lt_of_lt_of_le made first.size)).trans (first.receiver e made)
  super e made :=
    (second.super e (Nat.lt_of_lt_of_le made first.size)).trans (first.super e made)
  entry e made := (second.entry e (Nat.lt_of_lt_of_le made first.size)).trans (first.entry e made)
  classes i c found := second.classes i c (first.classes i c found)
  objects i o found := by
    obtain ⟨o', found', same⟩ := first.objects i o found
    obtain ⟨o'', found'', same'⟩ := second.objects i o' found'
    exact ⟨o'', found'', same'.trans same⟩

namespace Forest

/-- What is outward from a made environment was made. -/
theorem made_of_ancestor? {f : Forest}
    (closed : ∀ e outer, f.enclosing? e = some outer → outer.index < f.environments.size)
    {e e' : EnvironmentId} (made : e.index < f.environments.size) {d : Nat}
    (reached : f.ancestor? e d = some e') : e'.index < f.environments.size := by
  induction d generalizing e with
  | zero =>
      obtain rfl := Option.some.inj reached
      exact made
  | succ d ih =>
      obtain ⟨outer, encloses, reached⟩ := Option.bind_eq_some_iff.1 reached
      exact ih (closed e outer encloses) reached

/-- Environments that are made later are not outward from older ones. -/
theorem ancestor?_eq_of_made {f f' : Forest}
    (closed : ∀ e outer, f.enclosing? e = some outer → outer.index < f.environments.size)
    (kept : ∀ e : EnvironmentId, e.index < f.environments.size →
      f'.enclosing? e = f.enclosing? e)
    {e : EnvironmentId} (made : e.index < f.environments.size) (d : Nat) :
    f'.ancestor? e d = f.ancestor? e d := by
  induction d generalizing e with
  | zero => rfl
  | succ d ih =>
      rw [ancestor?, ancestor?, kept e made]
      cases encloses : f.enclosing? e with
      | none => rfl
      | some outer => exact ih (closed e outer encloses)

end Forest

theorem Covers.mono {e : EnvironmentId} {ns ns' : List Node} (covers : Covers h.forest entry e ns)
    (sub : ∀ n ∈ ns', n ∈ ns) : Covers h.forest entry e ns' :=
  ⟨covers.made, fun d e' r reached known n hn => covers.inside d e' r reached known n (sub n hn)⟩

theorem Covers.later (books : Books h entry) (follows : Follows h entry h' entry')
    {e : EnvironmentId} {ns : List Node} (covers : Covers h.forest entry e ns) :
    Covers h'.forest entry' e ns where
  made := Nat.lt_of_lt_of_le covers.made follows.size
  inside d e' r reached known := by
    rw [Forest.ancestor?_eq_of_made books.closed follows.enclosing covers.made] at reached
    have made := Forest.made_of_ancestor? books.closed covers.made reached
    rw [follows.entry e' made] at known
    exact covers.inside d e' r reached known

theorem Placed.later (books : Books h entry) (follows : Follows h entry h' entry') {g : Function}
    (placed : Placed h.forest entry g) : Placed h'.forest entry' g :=
  ⟨placed.covers.later books follows, placed.sound, placed.parameters⟩

theorem Rebound.later (follows : Follows h entry h' entry') {g : Function}
    (placed : Placed h.forest entry g) (rebound : Rebound entry g) : Rebound entry' g := by
  intro initializer
  rw [follows.entry _ placed.covers.made]
  exact rebound initializer

theorem Methods.later (books : Books h entry) (follows : Follows h entry h' entry') {c : Class}
    (methods : Methods h.forest entry c) : Methods h'.forest entry' c where
  placed name g own := (methods.placed name g own).later books follows
  named := methods.named
  super name g own := by
    rw [follows.super _ (methods.placed name g own).covers.made]
    exact methods.super name g own

theorem Receiver.Bound.later (follows : Follows h entry h' entry') {r : Receiver}
    {e : EnvironmentId} (made : e.index < h.forest.environments.size) (bound : r.Bound h e) :
    r.Bound h' e where
  held := by
    rw [follows.receiver e made]
    exact bound.held
  closure := by
    rw [follows.enclosing e made]
    exact bound.closure
  method := by
    obtain ⟨c, name, found, own⟩ := bound.method
    exact ⟨c, name, follows.classes _ _ found, own⟩
  object := by
    obtain ⟨o, found, below⟩ := bound.object
    obtain ⟨o', found', same⟩ := follows.objects _ _ found
    rw [← same] at below
    exact ⟨o', found', below.mono follows.classes⟩

/-- An environment that was bound was made. -/
theorem Books.made_of_entry (books : Books h entry) {e : EnvironmentId} {r : Receiver}
    (known : entry e = some r) : e.index < h.forest.environments.size :=
  h.forest.lt_size_of_enclosing? (books.bound e r known).closure

theorem Books.placed_of_owns (books : Books h entry) {id : ClassId} {g : Function}
    (owns : h.Owns id g) : Placed h.forest entry g := by
  obtain ⟨c, name, found, own⟩ := owns
  exact (books.methods _ c found).placed name g own

theorem Forest.ancestor?_succ (f : Forest) (e : EnvironmentId) (d : Nat) :
    f.ancestor? e (d + 1) = (f.ancestor? e d).bind f.enclosing? := by
  induction d generalizing e with
  | zero => exact Option.bind_fun_some _
  | succ d ih =>
      rw [ancestor?, ancestor?, Option.bind_assoc]
      exact congrArg _ (funext ih)

/-- A receiver at a distance and the class above its method, one environment further out. -/
structure Finds (h : Heap) (entry : EnvironmentId → Option Receiver) (e : EnvironmentId) (d : Nat)
    (r : Receiver) (above : ClassId) : Prop where
  known : ∃ e', h.forest.ancestor? e d = some e' ∧ entry e' = some r ∧ r.Bound h e'
  closure : h.forest.ancestor? e (d + 1) = some r.method.closure
  receiver : h.forest.getAt? e d receiverName = some (.object r.object)
  super : h.forest.getAt? e (d + 1) superName = some (.class above)
  superclass : ∃ c, h.classes[r.holder.index]? = some c ∧ c.superclass = some above

/-- A receiver and what is held under `super` one environment further out belong together. -/
theorem Books.finds (books : Books h entry) {e : EnvironmentId} {d : Nat}
    (receiver : (h.forest.getAt? e d receiverName).isSome)
    (super : (h.forest.getAt? e (d + 1) superName).isSome) :
    ∃ r above, Finds h entry e d r above := by
  rw [Forest.getAt?, Option.isSome_bind, Option.any_eq_true] at receiver
  obtain ⟨e', reached, held⟩ := receiver
  obtain ⟨r, known⟩ := Option.isSome_iff_exists.1 (books.entered e' held)
  have bound := books.bound e' r known
  have closure : h.forest.ancestor? e (d + 1) = some r.method.closure := by
    rw [Forest.ancestor?_succ, reached]
    exact bound.closure
  have own : h.forest.getAt? e (d + 1) superName = h.forest.own? r.method.closure superName := by
    rw [Forest.getAt?, closure]
    rfl
  obtain ⟨c, name, found, method⟩ := bound.method
  rw [own, (books.methods _ c found).super name _ method, Option.isSome_map] at super
  obtain ⟨above, superclass⟩ := Option.isSome_iff_exists.1 super
  refine ⟨r, above, ⟨e', reached, known, bound⟩, closure, ?_, ?_, c, found, superclass⟩
  · rw [Forest.getAt?, reached]
    exact bound.held
  · rw [own, (books.methods _ c found).super name _ method, superclass]
    rfl

/-! ### Small steps -/

/-- Environments that are the same but for ordinary names. -/
structure Forest.SameWords (f f' : Forest) : Prop where
  size : f'.environments.size = f.environments.size
  enclosing : ∀ e, f'.enclosing? e = f.enclosing? e
  receiver : ∀ e, f'.own? e receiverName = f.own? e receiverName
  super : ∀ e, f'.own? e superName = f.own? e superName

theorem Forest.sameWords_define (f : Forest) (id : EnvironmentId) {name : String}
    (ordinary : Ordinary name) (value : Value) : f.SameWords (f.define id name value) where
  size := by simp
  enclosing e := by simp
  receiver e := f.own?_define_of_ne value (Or.inr (Ne.symm ordinary.receiver))
  super e := f.own?_define_of_ne value (Or.inr (Ne.symm ordinary.super))

theorem Forest.sameWords_defineAll (f : Forest) (id : EnvironmentId)
    {entries : List (String × Value)} (ordinary : ∀ p ∈ entries, Ordinary p.1) :
    f.SameWords (f.defineAll id entries) := by
  induction entries generalizing f with
  | nil => exact ⟨rfl, fun _ => rfl, fun _ => rfl, fun _ => rfl⟩
  | cons p entries ih =>
      obtain ⟨head, rest⟩ := List.forall_mem_cons.1 ordinary
      have first := f.sameWords_define id head p.2
      have second := ih (f.define id p.1 p.2) rest
      exact {
        size := second.size.trans first.size
        enclosing := fun e => (second.enclosing e).trans (first.enclosing e)
        receiver := fun e => (second.receiver e).trans (first.receiver e)
        super := fun e => (second.super e).trans (first.super e) }

/-- Books of a heap in which ordinary names have changed. -/
theorem Books.withForest (books : Books h entry) {f : Forest} (same : h.forest.SameWords f) :
    Books { h with forest := f } entry ∧ Follows h entry { h with forest := f } entry := by
  have follows : Follows h entry { h with forest := f } entry :=
    { Follows.refl h entry with
      size := Nat.le_of_eq same.size.symm
      enclosing := fun e _ => same.enclosing e
      receiver := fun e _ => same.receiver e
      super := fun e _ => same.super e }
  refine ⟨{
    closed := fun e outer encloses => by
      rw [same.enclosing] at encloses
      rw [same.size]
      exact books.closed e outer encloses
    bound := fun e r known => (books.bound e r known).later follows (books.made_of_entry known)
    entered := fun e held => by
      rw [same.receiver] at held
      exact books.entered e held
    functions := fun i g found => (books.functions i g found).later books follows
    initializers := fun i g found =>
      (books.initializers i g found).later follows (books.functions i g found)
    methods := fun i c found => (books.methods i c found).later books follows
    apart := fun id id' g g' owns owns' closure held => by
      rw [same.super] at held
      exact books.apart id id' g g' owns owns' closure held }, follows⟩

/-- A forest with one more environment, which holds at most a receiver and a superclass. -/
structure Forest.Grown (f f' : Forest) (outer : EnvironmentId) (receiver super : Option Value) :
    Prop where
  size : f'.environments.size = f.environments.size + 1
  enclosing : ∀ e, e ≠ f.next → f'.enclosing? e = f.enclosing? e
  own : ∀ e name, e ≠ f.next → f'.own? e name = f.own? e name
  outer : f'.enclosing? f.next = some outer
  receiver : f'.own? f.next receiverName = receiver
  super : f'.own? f.next superName = super

namespace Forest

theorem ne_next_of_made {f : Forest} {e : EnvironmentId} (made : e.index < f.environments.size) :
    e ≠ f.next := by
  rintro rfl
  exact Nat.lt_irrefl _ made

theorem grown_grow (f : Forest) (outer : EnvironmentId) :
    f.Grown (f.grow (some outer)) outer none none where
  size := by simp [grow]
  enclosing e ne := by rw [enclosing?, enclosing?, f.environment?_grow_of_ne _ ne]
  own e name ne := by rw [own?, own?, f.environment?_grow_of_ne _ ne]
  outer := by simp [enclosing?]
  receiver := by simp [own?]
  super := by simp [own?]

/-- A new environment in which one word is defined. -/
theorem Grown.define {f f' : Forest} {outer : EnvironmentId} (grown : f.Grown f' outer none none)
    (word : String) (value : Value) :
    f.Grown (f'.define f.next word value) outer
      (if receiverName = word then some value else none)
      (if superName = word then some value else none) := by
  have made : (f'.environment? f.next).isSome := by
    apply isSome_environment?
    rw [grown.size]
    exact Nat.lt_succ_self _
  have new (other : String) (nothing : f'.own? f.next other = none) :
      (f'.define f.next word value).own? f.next other =
        if other = word then some value else none := by
    by_cases same : other = word
    · rw [if_pos same, same, f'.own?_define_self _ _ _ made]
    · rw [if_neg same, f'.own?_define_of_ne value (Or.inr same), nothing]
  exact {
    size := by simpa using grown.size
    enclosing := fun e ne => by simpa using grown.enclosing e ne
    own := fun e name ne => (f'.own?_define_of_ne value (Or.inl ne)).trans (grown.own e name ne)
    outer := by simpa using grown.outer
    receiver := new _ grown.receiver
    super := new _ grown.super }

end Forest

structure Opens (h : Heap) (entry entry' : EnvironmentId → Option Receiver)
    (outer : EnvironmentId) (receiver : Option Value) : Prop where
  old : ∀ e, e ≠ h.forest.next → entry' e = entry e
  new : (entry' h.forest.next = none ∧ receiver = none) ∨
    ∃ r, entry' h.forest.next = some r ∧ receiver = some (.object r.object) ∧
      outer = r.method.closure ∧
      h.Owns r.holder r.method ∧
      ∃ o, h.objects[r.object.index]? = some o ∧ h.Below o.classId r.holder

theorem Opens.none (books : Books h entry) (outer : EnvironmentId) :
    Opens h entry entry outer none where
  old _ _ := rfl
  new := by
    refine Or.inl ⟨?_, rfl⟩
    cases known : entry h.forest.next with
    | none => rfl
    | some r => exact absurd rfl (Forest.ne_next_of_made (books.made_of_entry known))

section Grown

variable {f : Forest} {outer : EnvironmentId} {receiver super : Option Value}

theorem Forest.Grown.follows (grown : h.forest.Grown f outer receiver super)
    (opens : Opens h entry entry' outer receiver) :
    Follows h entry { h with forest := f } entry' :=
  { Follows.refl h entry with
    size := by
      rw [grown.size]
      exact Nat.le_succ _
    enclosing := fun e made => grown.enclosing e (Forest.ne_next_of_made made)
    receiver := fun e made => grown.own e _ (Forest.ne_next_of_made made)
    super := fun e made => grown.own e _ (Forest.ne_next_of_made made)
    entry := fun e made => opens.old e (Forest.ne_next_of_made made) }

theorem Books.grow (books : Books h entry) (made : outer.index < h.forest.environments.size)
    (grown : h.forest.Grown f outer receiver super)
    (opens : Opens h entry entry' outer receiver) : Books { h with forest := f } entry' := by
  have follows := grown.follows opens
  exact {
    closed := fun e outer' encloses => by
      refine Nat.lt_of_lt_of_le ?_ follows.size
      by_cases new : e = h.forest.next
      · rw [new, grown.outer] at encloses
        exact Option.some.inj encloses ▸ made
      · rw [grown.enclosing e new] at encloses
        exact books.closed e outer' encloses
    bound := fun e r known => by
      by_cases new : e = h.forest.next
      · subst new
        rcases opens.new with ⟨nothing, -⟩ | ⟨r', known', held, closure, method, object⟩
        · rw [nothing] at known
          cases known
        · obtain rfl := Option.some.inj (known.symm.trans known')
          obtain ⟨o, found, below⟩ := object
          exact ⟨grown.receiver.trans held, grown.outer.trans (congrArg some closure), method, o,
            found, below.mono follows.classes⟩
      · rw [opens.old e new] at known
        exact (books.bound e r known).later follows (books.made_of_entry known)
    entered := fun e held => by
      by_cases new : e = h.forest.next
      · subst new
        rcases opens.new with ⟨-, nothing⟩ | ⟨r, known, -⟩
        · rw [grown.receiver, nothing] at held
          cases held
        · rw [known]
          rfl
      · rw [grown.own e _ new] at held
        rw [opens.old e new]
        exact books.entered e held
    functions := fun i g found => (books.functions i g found).later books follows
    initializers := fun i g found =>
      (books.initializers i g found).later follows (books.functions i g found)
    methods := fun i c found => (books.methods i c found).later books follows
    apart := fun id id' g g' owns owns' closure held => by
      rw [grown.own _ _ (Forest.ne_next_of_made (books.placed_of_owns owns).covers.made)] at held
      exact books.apart id id' g g' owns owns' closure held }

/-- Code that may run outside may run in a new environment, if what is bound there allows it. -/
theorem Covers.grow (books : Books h entry) (grown : h.forest.Grown f outer receiver super)
    (opens : Opens h entry entry' outer receiver) {ns : List Node}
    (covers : Covers h.forest entry outer ns)
    (allowed : ∀ r, entry' h.forest.next = some r → ∀ n ∈ ns, n ∈ r.method.declaration.nodes) :
    Covers f entry' h.forest.next ns where
  made := by
    rw [grown.size]
    exact Nat.lt_succ_self _
  inside d e r reached known := by
    cases d with
    | zero =>
        obtain rfl := Option.some.inj reached
        exact allowed r known
    | succ d =>
        rw [Forest.ancestor?, grown.outer] at reached
        have later := covers.later books (grown.follows opens)
        exact later.inside d e r reached known

end Grown

/-- Books of a heap with one more function. -/
theorem Books.pushFunction (books : Books h entry) {g : Function}
    (placed : Placed h.forest entry g) (rebound : Rebound entry g) :
    Books { h with functions := h.functions.push g } entry ∧
      Follows h entry { h with functions := h.functions.push g } entry := by
  have follows : Follows h entry { h with functions := h.functions.push g } entry :=
    { Follows.refl h entry with }
  refine ⟨{
    closed := books.closed
    bound := fun e r known => (books.bound e r known).later follows (books.made_of_entry known)
    entered := books.entered
    functions := fun i g' found => by
      rw [Array.getElem?_push] at found
      split at found
      · exact Option.some.inj found ▸ placed
      · exact books.functions i g' found
    initializers := fun i g' found => by
      rw [Array.getElem?_push] at found
      split at found
      · exact Option.some.inj found ▸ rebound
      · exact books.initializers i g' found
    methods := books.methods
    apart := books.apart }, follows⟩

/-- Books of a heap with other objects of the same classes. -/
theorem Books.withObjects (books : Books h entry) (objects : Array Object)
    (kept : ∀ (i : Nat) o, h.objects[i]? = some o →
      ∃ o', objects[i]? = some o' ∧ o'.classId = o.classId) :
    Books { h with objects } entry ∧ Follows h entry { h with objects } entry := by
  have follows : Follows h entry { h with objects } entry :=
    { Follows.refl h entry with objects := kept }
  exact ⟨{
    closed := books.closed
    bound := fun e r known => (books.bound e r known).later follows (books.made_of_entry known)
    entered := books.entered
    functions := books.functions
    initializers := books.initializers
    methods := books.methods
    apart := books.apart }, follows⟩

/-- Books of a heap with one more class, whose methods share no environment with others. -/
theorem Books.pushClass (books : Books h entry) {c : Class} (methods : Methods h.forest entry c)
    (apart : ∀ name g, c.methods.get? name = some g → (h.forest.own? g.closure superName).isSome →
      ∀ id g', h.Owns id g' → g'.closure ≠ g.closure) :
    Books { h with classes := h.classes.push c } entry ∧
      Follows h entry { h with classes := h.classes.push c } entry := by
  have grown (i : Nat) (c' : Class) (found : h.classes[i]? = some c') :
      (h.classes.push c)[i]? = some c' := by
    have inside : i < h.classes.size := (Array.getElem?_eq_some_iff.1 found).1
    rw [Array.getElem?_push, if_neg (Nat.ne_of_lt inside)]
    exact found
  have follows : Follows h entry { h with classes := h.classes.push c } entry :=
    { Follows.refl h entry with classes := grown }
  have class_cases (i : Nat) (c' : Class) (found : (h.classes.push c)[i]? = some c') :
      (i = h.classes.size ∧ c' = c) ∨ h.classes[i]? = some c' := by
    rw [Array.getElem?_push] at found
    split at found
    · exact Or.inl ⟨‹_›, (Option.some.inj found).symm⟩
    · exact Or.inr found
  have owns_cases (id : ClassId) (g : Function)
      (owns : Heap.Owns { h with classes := h.classes.push c } id g) :
      (id.index = h.classes.size ∧ ∃ name, c.methods.get? name = some g) ∨ h.Owns id g := by
    obtain ⟨c', name, found, own⟩ := owns
    rcases class_cases _ _ found with ⟨new, rfl⟩ | old
    · exact Or.inl ⟨new, name, own⟩
    · exact Or.inr ⟨c', name, old, own⟩
  refine ⟨{
    closed := books.closed
    bound := fun e r known => (books.bound e r known).later follows (books.made_of_entry known)
    entered := books.entered
    functions := books.functions
    initializers := books.initializers
    methods := fun i c' found => ?_
    apart := fun id id' g g' owns owns' closure held => ?_ }, follows⟩
  · rcases class_cases i c' found with ⟨-, rfl⟩ | old
    · exact methods
    · exact books.methods i c' old
  · rcases owns_cases id g owns with ⟨new, name, own⟩ | old
    · rcases owns_cases id' g' owns' with ⟨new', -⟩ | old'
      · exact congrArg ClassId.mk (new'.trans new.symm)
      · exact absurd closure (apart name g own held id' g' old')
    · rcases owns_cases id' g' owns' with ⟨-, name', own'⟩ | old'
      · rw [← closure] at held
        exact absurd closure.symm (apart name' g' own' held id g old)
      · exact books.apart id id' g g' old old' closure held

end Lox
