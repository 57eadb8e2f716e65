import Lox.Proofs.Heap.Lookup
import Lox.Proofs.Heap.Region

/-!
# Well-founded heaps

Values may refer to each other in circles, through variables and fields, but two kinds of links may
not: an environment is enclosed by an older one, and a class inherits from an older one.  A heap is
*grounded* if this is so and no link leads to a place that was not made (`Heap.Grounded`).  Then the
searches along these links end, although nothing bounds them (`Heap.Searchable`).

What a place is made with never changes: an environment stays where it is, a function keeps its
closure, a class its superclass and its methods, and an object its class (`Heap.Extends`).  Each
mutation of a heap adds at most links to what it is given.
-/

namespace Lox

theorem Value.In.mono {R R' : Place → Prop} {v : Value} (inside : v.In R) (sub : ∀ p, R p → R' p) :
    v.In R' :=
  fun p place => sub p (inside p place)

/-- What encloses an environment after a new one was made. -/
theorem Forest.enclosing?_of_grow {f : Forest} {outer e outer' : EnvironmentId}
    (encloses : (f.grow (some outer)).enclosing? e = some outer') :
    e = f.next ∧ outer' = outer ∨ f.enclosing? e = some outer' := by
  rw [Forest.enclosing?_grow] at encloses
  split at encloses
  · rename_i new
    exact Or.inl ⟨new, (Option.some.inj encloses).symm⟩
  · exact Or.inr encloses

namespace Heap

/-- The other heap has all that is in this one, and what its places were made with. -/
structure Extends (h h' : Heap) : Prop where
  environments : h.forest.environments.size ≤ h'.forest.environments.size
  enclosing : ∀ e : EnvironmentId, e.index < h.forest.environments.size →
    h'.forest.enclosing? e = h.forest.enclosing? e
  functions : ∀ (i : Nat) f, h.functions[i]? = some f → h'.functions[i]? = some f
  classes : ∀ (i : Nat) c, h.classes[i]? = some c → h'.classes[i]? = some c
  objects : ∀ (i : Nat) o, h.objects[i]? = some o →
    ∃ o', h'.objects[i]? = some o' ∧ o'.classId = o.classId

/-- The links of a heap lead to places that were made, and those between environments and between
classes to older ones. -/
structure Grounded (h : Heap) : Prop where
  made : ∀ {p q}, h.Link p q → h.Made q
  enclosing : ∀ {e outer : EnvironmentId}, h.forest.enclosing? e = some outer →
    outer.index < e.index
  superclass : ∀ {id above : ClassId} {c : Class}, h.classes[id.index]? = some c →
    c.superclass = some above → above.index < id.index

variable {h h' h'' : Heap}

namespace Extends

theorem refl (h : Heap) : h.Extends h :=
  ⟨Nat.le_refl _, fun _ _ => rfl, fun _ _ => id, fun _ _ => id, fun _ o found => ⟨o, found, rfl⟩⟩

theorem trans (first : h.Extends h') (second : h'.Extends h'') : h.Extends h'' where
  environments := Nat.le_trans first.environments second.environments
  enclosing e made :=
    (second.enclosing e (Nat.lt_of_lt_of_le made first.environments)).trans
      (first.enclosing e made)
  functions i f found := second.functions i f (first.functions i f found)
  classes i c found := second.classes i c (first.classes i c found)
  objects i o found := by
    obtain ⟨o', found', same⟩ := first.objects i o found
    obtain ⟨o'', found'', same'⟩ := second.objects i o' found'
    exact ⟨o'', found'', same'.trans same⟩

/-- What was made stays. -/
theorem made (ext : h.Extends h') {p : Place} (made : h.Made p) : h'.Made p := by
  have lt_size {α : Type} {xs : Array α} {x : α} {i : Nat} (found : xs[i]? = some x) :
      i < xs.size := (Array.getElem?_eq_some_iff.1 found).1
  cases p with
  | environment id => exact Nat.lt_of_lt_of_le made ext.environments
  | function id => exact lt_size (ext.functions id.index _ (Array.getElem?_eq_getElem made))
  | «class» id => exact lt_size (ext.classes id.index _ (Array.getElem?_eq_getElem made))
  | object id =>
      obtain ⟨o, found, -⟩ := ext.objects id.index _ (Array.getElem?_eq_getElem made)
      exact lt_size found

theorem holds (ext : h.Extends h') {v : Value} (here : v.In h.Made) : v.In h'.Made :=
  here.mono fun _ => ext.made

/-! ### Mutations -/

theorem withForest (h : Heap) {f : Forest}
    (environments : h.forest.environments.size ≤ f.environments.size)
    (enclosing : ∀ e : EnvironmentId, e.index < h.forest.environments.size →
      f.enclosing? e = h.forest.enclosing? e) : h.Extends { h with forest := f } :=
  { refl h with environments, enclosing }

theorem define (h : Heap) (id : EnvironmentId) (name : String) (v : Value) :
    h.Extends { h with forest := h.forest.define id name v } :=
  withForest h (by rw [Forest.size_define]) fun e _ => h.forest.enclosing?_define id e name v

theorem defineAll (h : Heap) (id : EnvironmentId) (entries : List (String × Value)) :
    h.Extends { h with forest := h.forest.defineAll id entries } :=
  withForest h (by rw [Forest.size_defineAll]) fun e _ => h.forest.enclosing?_defineAll id e entries

theorem grow (h : Heap) (outer : Option EnvironmentId) :
    h.Extends { h with forest := h.forest.grow outer } := by
  refine withForest h (by simp [Forest.grow]) fun e made => ?_
  rw [Forest.enclosing?, Forest.enclosing?, h.forest.environment?_grow_of_lt outer made]

theorem getElem?_push {α : Type} {xs : Array α} {x y : α} {i : Nat} (found : xs[i]? = some y) :
    (xs.push x)[i]? = some y := by
  have inside : i < xs.size := (Array.getElem?_eq_some_iff.1 found).1
  rw [Array.getElem?_push, if_neg (Nat.ne_of_lt inside), found]

theorem pushFunction (h : Heap) (f : Function) :
    h.Extends { h with functions := h.functions.push f } :=
  { refl h with functions := fun _ _ => getElem?_push }

theorem pushClass (h : Heap) (c : Class) : h.Extends { h with classes := h.classes.push c } :=
  { refl h with classes := fun _ _ => getElem?_push }

theorem pushObject (h : Heap) (o : Object) : h.Extends { h with objects := h.objects.push o } :=
  { refl h with objects := fun _ o found => ⟨o, getElem?_push found, rfl⟩ }

theorem setField (h : Heap) (id : ObjectId) (name : String) (v : Value) :
    h.Extends { h with objects := h.objects.modify id.index fun o =>
      { o with fields := o.fields.set name v } } :=
  { refl h with
    objects := fun i o found => by
      rw [Array.getElem?_modify]
      split
      · rw [found]
        exact ⟨_, rfl, rfl⟩
      · exact ⟨o, found, rfl⟩ }

end Extends

namespace Grounded

/-- The links of a grounded heap lead to what is in a later one. -/
theorem closed (grounded : h.Grounded) (ext : h.Extends h') : h.Closed h'.Made :=
  closed_of_link fun _ _ link _ => ext.made (grounded.made link)

/-! ### Mutations

The links that were there before lead to what was made before, and the new ones to what is given. -/

theorem define (grounded : h.Grounded) (id : EnvironmentId) (name : String) {v : Value}
    (here : v.In h.Made) : Heap.Grounded { h with forest := h.forest.define id name v } where
  made link := by
    refine Closed.link ?_ link link.made
    have ext := Extends.define h id name v
    refine
      { grounded.closed ext with
        enclosing := fun encloses _ => ?_
        binding := fun own _ => ?_ }
    · rw [Forest.enclosing?_define] at encloses
      exact ext.made (grounded.made (.enclosing encloses))
    · rcases Forest.own?_of_define own with rfl | own
      · exact ext.holds here
      · exact fun p place => ext.made (grounded.made (.binding own place))
  enclosing encloses := grounded.enclosing (by rwa [Forest.enclosing?_define] at encloses)
  superclass := grounded.superclass

theorem defineAll (grounded : h.Grounded) (id : EnvironmentId) {entries : List (String × Value)}
    (here : ∀ entry ∈ entries, entry.2.In h.Made) :
    Heap.Grounded { h with forest := h.forest.defineAll id entries } := by
  induction entries generalizing h with
  | nil => exact grounded
  | cons entry entries ih =>
      obtain ⟨first, rest⟩ := List.forall_mem_cons.1 here
      have ext := Extends.define h id entry.1 entry.2
      exact ih (grounded.define id entry.1 first) fun e he => ext.holds (rest e he)

theorem grow (grounded : h.Grounded) {outer : EnvironmentId} (here : h.Made (.environment outer)) :
    Heap.Grounded { h with forest := h.forest.grow (some outer) } where
  made link := by
    refine Closed.link ?_ link link.made
    have ext := Extends.grow h (some outer)
    refine
      { grounded.closed ext with
        enclosing := fun encloses _ => ?_
        binding := fun {e _ _} own _ => ?_ }
    · rcases Forest.enclosing?_of_grow encloses with ⟨-, rfl⟩ | encloses
      · exact ext.made here
      · exact ext.made (grounded.made (.enclosing encloses))
    · by_cases new : e = h.forest.next
      · rw [new, Forest.own?, Forest.environment?_grow_next] at own
        cases own
      · rw [Forest.own?, Forest.environment?_grow_of_ne _ _ new] at own
        exact fun p place => ext.made (grounded.made (.binding own place))
  enclosing encloses := by
    rcases Forest.enclosing?_of_grow encloses with ⟨rfl, rfl⟩ | encloses
    · exact here
    · exact grounded.enclosing encloses
  superclass := grounded.superclass

theorem pushFunction (grounded : h.Grounded) {f : Function}
    (here : h.Made (.environment f.closure)) :
    Heap.Grounded { h with functions := h.functions.push f } where
  made link := by
    refine Closed.link ?_ link link.made
    have ext := Extends.pushFunction h f
    refine { grounded.closed ext with closure := fun found _ => ?_ }
    rcases eq_or_of_getElem?_push found with rfl | found
    · exact ext.made here
    · exact ext.made (grounded.made (.closure found))
  enclosing := grounded.enclosing
  superclass := grounded.superclass

theorem pushClass (grounded : h.Grounded) {c : Class}
    (above : ∀ id ∈ c.superclass, h.Made (.class id))
    (methods : ∀ name f, c.methods.get? name = some f → h.Made (.environment f.closure)) :
    Heap.Grounded { h with classes := h.classes.push c } where
  made link := by
    refine Closed.link ?_ link link.made
    have ext := Extends.pushClass h c
    refine
      { grounded.closed ext with
        superclass := fun {_ id _} found superclass _ => ?_
        method := fun {_ _ name f} found own _ => ?_ }
    · rcases eq_or_of_getElem?_push found with rfl | found
      · exact ext.made (above id superclass)
      · exact ext.made (grounded.made (.superclass found superclass))
    · rcases eq_or_of_getElem?_push found with rfl | found
      · exact ext.made (methods name f own)
      · exact ext.made (grounded.made (.method found own))
  enclosing := grounded.enclosing
  superclass {id above' c'} found superclass := by
    rw [Array.getElem?_push] at found
    split at found
    · rename_i new
      obtain rfl := Option.some.inj found
      rw [new]
      exact above above' superclass
    · exact grounded.superclass found superclass

theorem pushObject (grounded : h.Grounded) {id : ClassId} (here : h.Made (.class id)) :
    Heap.Grounded { h with objects := h.objects.push ⟨id, []⟩ } where
  made link := by
    refine Closed.link ?_ link link.made
    have ext := Extends.pushObject h ⟨id, []⟩
    refine
      { grounded.closed ext with
        classOf := fun found _ => ?_
        field := fun found held _ => ?_ }
    · rcases eq_or_of_getElem?_push found with rfl | found
      · exact ext.made here
      · exact ext.made (grounded.made (.classOf found))
    · rcases eq_or_of_getElem?_push found with rfl | found
      · cases held
      · exact fun p place => ext.made (grounded.made (.field found held place))
  enclosing := grounded.enclosing
  superclass := grounded.superclass

theorem setField (grounded : h.Grounded) (id : ObjectId) (name : String) {v : Value}
    (here : v.In h.Made) :
    Heap.Grounded { h with objects := h.objects.modify id.index fun o =>
      { o with fields := o.fields.set name v } } where
  made link := by
    refine Closed.link ?_ link link.made
    have ext := Extends.setField h id name v
    refine
      { grounded.closed ext with
        classOf := fun found _ => ?_
        field := fun {_ _ other w} found held _ => ?_ }
    · obtain ⟨o, before, same, -⟩ := of_setField found
      exact same ▸ ext.made (grounded.made (.classOf before))
    · obtain ⟨o, before, -, fields⟩ := of_setField found
      rcases fields other w held with rfl | held
      · exact ext.holds here
      · exact fun p place => ext.made (grounded.made (.field before held place))
  enclosing := grounded.enclosing
  superclass := grounded.superclass

end Grounded

/-! ### Searches -/

/-- The searches outward and upward end.  The bounds that they are given do not show: a search that
goes on from what a link leads to finds the same. -/
structure Searchable (h : Heap) : Prop where
  outward : WellFounded fun outer e : EnvironmentId => h.forest.enclosing? e = some outer
  upward : WellFounded fun above id : ClassId =>
    ∃ c, h.classes[id.index]? = some c ∧ c.superclass = some above
  holder : ∀ e name, h.forest.holder? e name =
    if (h.forest.own? e name).isSome then some e
    else (h.forest.enclosing? e).bind fun outer => h.forest.holder? outer name
  ancestor : ∀ e distance, e.index < distance → h.forest.ancestor? e distance = none
  method : ∀ id name, h.method? id name = (h.classes[id.index]?).bind fun c =>
    (c.methods.get? name).or (c.superclass.bind fun above => h.method? above name)

namespace Grounded

theorem founded (grounded : h.Grounded) : h.forest.Founded := fun _ _ => grounded.enclosing

theorem holderWithin? (grounded : h.Grounded) {e : EnvironmentId} {bound : Nat}
    (enough : e.index < bound) (name : String) :
    h.forest.holderWithin? bound e name = h.forest.holder? e name :=
  Option.ext fun _ => (grounded.founded.holderWithin?_eq_some_iff enough).trans
    grounded.founded.holder?_eq_some_iff.symm

theorem methodWithin? (grounded : h.Grounded) {id : ClassId} {bound : Nat}
    (enough : id.index < bound) (name : String) :
    h.methodWithin? bound id name = h.method? id name := by
  suffices within : ∀ (n : Nat) (id : ClassId) (b b' : Nat), id.index < n → id.index < b →
      id.index < b' → h.methodWithin? b id name = h.methodWithin? b' id name from
    within (id.index + 1) id _ _ (Nat.lt_succ_self _) enough (Nat.lt_succ_self _)
  intro n
  induction n with
  | zero => exact fun _ _ _ small => absurd small (Nat.not_lt_zero _)
  | succ n ih =>
      intro id b b' small hb hb'
      obtain ⟨b, rfl⟩ := Nat.exists_eq_succ_of_ne_zero (Nat.ne_of_gt (Nat.zero_lt_of_lt hb))
      obtain ⟨b', rfl⟩ := Nat.exists_eq_succ_of_ne_zero (Nat.ne_of_gt (Nat.zero_lt_of_lt hb'))
      rw [Heap.methodWithin?, Heap.methodWithin?]
      cases found : h.classes[id.index]? with
      | none => rfl
      | some c =>
          simp only [Option.bind_some]
          cases c.methods.get? name with
          | some f => rfl
          | none =>
              cases superclass : c.superclass with
              | none => rfl
              | some above =>
                  have older := grounded.superclass found superclass
                  exact ih above b b' (by omega) (by omega) (by omega)

theorem ancestor? (grounded : h.Grounded) {e : EnvironmentId} {distance : Nat}
    (far : e.index < distance) : h.forest.ancestor? e distance = none := by
  induction distance generalizing e with
  | zero => exact absurd far (Nat.not_lt_zero _)
  | succ distance ih =>
      rw [Forest.ancestor?]
      cases encloses : h.forest.enclosing? e with
      | none => rfl
      | some outer =>
          have older := grounded.enclosing encloses
          exact ih (by omega)

/-- Searches in a grounded heap end. -/
theorem searchable (grounded : h.Grounded) : h.Searchable where
  outward := Subrelation.wf (fun encloses => grounded.enclosing encloses)
    (InvImage.wf EnvironmentId.index Nat.lt_wfRel.wf)
  upward := Subrelation.wf (fun ⟨_, found, superclass⟩ => grounded.superclass found superclass)
    (InvImage.wf ClassId.index Nat.lt_wfRel.wf)
  holder e name := by
    rw [Forest.holder?, Forest.holderWithin?]
    split
    · rfl
    · cases encloses : h.forest.enclosing? e with
      | none => rfl
      | some outer => exact grounded.holderWithin? (grounded.enclosing encloses) name
  ancestor _ _ far := grounded.ancestor? far
  method id name := by
    rw [Heap.method?, Heap.methodWithin?]
    cases found : h.classes[id.index]? with
    | none => rfl
    | some c =>
        simp only [Option.bind_some]
        cases c.methods.get? name with
        | some f => rfl
        | none =>
            cases superclass : c.superclass with
            | none => rfl
            | some above =>
                exact grounded.methodWithin? (grounded.superclass found superclass) name

end Grounded

end Heap

end Lox
