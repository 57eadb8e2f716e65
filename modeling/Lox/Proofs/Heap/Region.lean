import Lox.Proofs.Heap.Reachable
import Lox.Proofs.Heap.Receiver

/-!
# Regions of the heap

A region is a set of places.  It is closed in a heap if no link leads out of it (`Heap.Closed`), and
then nothing that is looked up from inside is outside.  `Heap.Confined` says of a heap that it has
come from an earlier one by changes inside a closed region: environments and objects outside are as
they were.  Every small step of execution that works inside the region keeps this.
-/

namespace Lox

/-- The value refers to nothing outside the region. -/
def Value.In (R : Place → Prop) (v : Value) : Prop := ∀ p, v.place? = some p → R p

theorem Value.In.plain {R : Place → Prop} {v : Value} (h : v.place? = none) : v.In R := by
  intro p here
  rw [h] at here
  cases here

/-- A value that an environment holds after a change of one entry is the new one, or was there. -/
theorem Forest.own?_of_define {f : Forest} {id e : EnvironmentId} {name other : String}
    {v w : Value} (found : (f.define id name v).own? e other = some w) :
    w = v ∨ f.own? e other = some w := by
  by_cases same : e = id ∧ other = name
  · obtain ⟨rfl, rfl⟩ := same
    have made : (f.environment? e).isSome := by
      obtain ⟨c, here, -⟩ := Option.bind_eq_some_iff.1 found
      rw [Forest.environment?_define] at here
      obtain ⟨c', before, -⟩ := Option.map_eq_some_iff.1 here
      exact Option.isSome_iff_exists.2 ⟨c', before⟩
    rw [Forest.own?_define_self f e other v made] at found
    exact Or.inl (Option.some.inj found).symm
  · rw [Forest.own?_define_of_ne _ _ (by tauto)] at found
    exact Or.inr found

theorem eq_or_of_getElem?_push {α : Type} {xs : Array α} {x y : α} {i : Nat}
    (found : (xs.push x)[i]? = some y) : y = x ∨ xs[i]? = some y := by
  rw [Array.getElem?_push] at found
  split at found
  · exact Or.inl (Option.some.inj found).symm
  · exact Or.inr found

/-- An object after a field was set has the class that it had, and one field that is new. -/
theorem of_setField {objects : Array Object} {i j : Nat} {name : String} {v : Value} {o : Object}
    (found : (objects.modify i fun o => { o with fields := o.fields.set name v })[j]? = some o) :
    ∃ o', objects[j]? = some o' ∧ o.classId = o'.classId ∧
      ∀ other w, o.fields.get? other = some w → w = v ∨ o'.fields.get? other = some w := by
  rw [Array.getElem?_modify] at found
  split at found
  · obtain ⟨o', before, rfl⟩ := Option.map_eq_some_iff.1 found
    refine ⟨o', before, rfl, fun other w held => ?_⟩
    by_cases same : other = name
    · rw [same, Table.get?_set_self] at held
      exact Or.inl (Option.some.inj held).symm
    · rw [Table.get?_set_of_ne _ _ same] at held
      exact Or.inr held
  · exact ⟨o, found, rfl, fun _ _ held => Or.inr held⟩

namespace Heap

/-- No link leads out of the region. -/
structure Closed (h : Heap) (R : Place → Prop) : Prop where
  enclosing : ∀ {e outer : EnvironmentId}, h.forest.enclosing? e = some outer →
    R (.environment e) → R (.environment outer)
  binding : ∀ {e : EnvironmentId} {name v}, h.forest.own? e name = some v →
    R (.environment e) → v.In R
  closure : ∀ {id : FunctionId} {f : Function}, h.functions[id.index]? = some f →
    R (.function id) → R (.environment f.closure)
  superclass : ∀ {id above : ClassId} {c : Class}, h.classes[id.index]? = some c →
    c.superclass = some above → R (.class id) → R (.class above)
  method : ∀ {id : ClassId} {c : Class} {name f}, h.classes[id.index]? = some c →
    c.methods.get? name = some f → R (.class id) → R (.environment f.closure)
  classOf : ∀ {id : ObjectId} {o : Object}, h.objects[id.index]? = some o →
    R (.object id) → R (.class o.classId)
  field : ∀ {id : ObjectId} {o : Object} {name v}, h.objects[id.index]? = some o →
    o.fields.get? name = some v → R (.object id) → v.In R

variable {h : Heap} {R : Place → Prop}

theorem closed_of_link (links : ∀ p q, h.Link p q → R p → R q) : h.Closed R where
  enclosing outer := links _ _ (.enclosing outer)
  binding own here p place := links _ p (.binding own place) here
  closure found := links _ _ (.closure found)
  superclass found above := links _ _ (.superclass found above)
  method found own := links _ _ (.method found own)
  classOf found := links _ _ (.classOf found)
  field found held here p place := links _ p (.field found held place) here

namespace Closed

theorem link (closed : h.Closed R) {p q : Place} (link : h.Link p q) (here : R p) : R q := by
  cases link with
  | enclosing outer => exact closed.enclosing outer here
  | binding own place => exact closed.binding own here q place
  | closure found => exact closed.closure found here
  | superclass found above => exact closed.superclass found above here
  | method found own => exact closed.method found own here
  | classOf found => exact closed.classOf found here
  | field found held place => exact closed.field found held here q place

theorem reaches (closed : h.Closed R) {p q : Place} (path : h.Reaches p q) (here : R p) : R q := by
  induction path with
  | refl => exact here
  | tail _ link inside => exact closed.link link inside

/-! ### What is looked up from inside -/

theorem ancestor? (closed : h.Closed R) {e a : EnvironmentId} {distance : Nat}
    (here : R (.environment e)) (found : h.forest.ancestor? e distance = some a) :
    R (.environment a) := by
  induction distance generalizing e with
  | zero => exact Option.some.inj found ▸ here
  | succ distance ih =>
      obtain ⟨outer, enclosing, found⟩ := Option.bind_eq_some_iff.1 found
      exact ih (closed.enclosing enclosing here) found

theorem holder? (closed : h.Closed R) {e holder : EnvironmentId} {name : String}
    (here : R (.environment e)) (found : h.forest.holder? e name = some holder) :
    R (.environment holder) := by
  rw [Forest.holder?] at found
  generalize e.index + 1 = bound at found
  induction bound generalizing e with
  | zero => cases found
  | succ bound ih =>
      rw [Forest.holderWithin?] at found
      split at found
      · exact Option.some.inj found ▸ here
      · obtain ⟨outer, enclosing, found⟩ := Option.bind_eq_some_iff.1 found
        exact ih (closed.enclosing enclosing here) found

theorem holderAt? (closed : h.Closed R) {e holder : EnvironmentId} {distance : Nat} {name : String}
    (here : R (.environment e)) (found : h.forest.holderAt? e distance name = some holder) :
    R (.environment holder) :=
  closed.ancestor? here (Option.filter_eq_some_iff.1 found).1

theorem getAt? (closed : h.Closed R) {e : EnvironmentId} {distance : Nat} {name : String}
    {v : Value} (here : R (.environment e)) (found : h.forest.getAt? e distance name = some v) :
    v.In R := by
  obtain ⟨a, ancestor, own⟩ := Option.bind_eq_some_iff.1 found
  exact closed.binding own (closed.ancestor? here ancestor)

theorem get? (closed : h.Closed R) {e : EnvironmentId} {name : String} {v : Value}
    (here : R (.environment e)) (found : h.forest.get? e name = some v) : v.In R := by
  obtain ⟨a, holder, own⟩ := Option.bind_eq_some_iff.1 found
  exact closed.binding own (closed.holder? here holder)

theorem method? (closed : h.Closed R) {id : ClassId} {name : String} {f : Function}
    (here : R (.class id)) (found : h.method? id name = some f) : R (.environment f.closure) := by
  obtain ⟨holder, below, c, key, hc, own⟩ := exists_of_method? found
  refine closed.method hc own ?_
  clear found hc own
  induction below with
  | refl id => exact here
  | step hc above _ ih => exact ih (closed.superclass hc above here)

end Closed

/-! ### Changes inside -/

/-- The heap has come from an earlier one by changes inside the region. -/
structure Confined (R : Place → Prop) (h₀ h : Heap) : Prop where
  /-- What is made is in the region. -/
  fresh : ∀ p, ¬ h₀.Made p → R p
  made : ∀ p, h₀.Made p → h.Made p
  closed : h.Closed R
  environment : ∀ e c, h₀.forest.environment? e = some c → ¬ R (.environment e) →
    h.forest.environment? e = some c
  object : ∀ (id : ObjectId) o, h₀.objects[id.index]? = some o → ¬ R (.object id) →
    h.objects[id.index]? = some o

namespace Confined

variable {h₀ : Heap}

/-- What is not in the heap yet will be in the region. -/
theorem new (confined : Confined R h₀ h) {p : Place} (new : ¬ h.Made p) : R p :=
  confined.fresh p fun made => new (confined.made p made)

theorem define (confined : Confined R h₀ h) {id : EnvironmentId} (here : R (.environment id))
    (name : String) {v : Value} (inside : v.In R) :
    Confined R h₀ { h with forest := h.forest.define id name v } where
  fresh := confined.fresh
  made p made := by
    have before := confined.made p made
    cases p with
    | environment e => rwa [Made, Forest.size_define]
    | _ => exact before
  closed :=
    { confined.closed with
      enclosing := fun {e outer} found => by
        rw [Forest.enclosing?_define] at found
        exact confined.closed.enclosing found
      binding := fun {e other w} found inner => by
        rcases Forest.own?_of_define found with rfl | found
        · exact inside
        · exact confined.closed.binding found inner }
  environment e c found outside := by
    have apart : id ≠ e := fun same => outside (same ▸ here)
    rw [Forest.environment?_define, confined.environment e c found outside]
    simp [apart]
  object := confined.object

theorem defineAll (confined : Confined R h₀ h) {id : EnvironmentId} (here : R (.environment id))
    {entries : List (String × Value)} (inside : ∀ entry ∈ entries, entry.2.In R) :
    Confined R h₀ { h with forest := h.forest.defineAll id entries } := by
  induction entries generalizing h with
  | nil => exact confined
  | cons entry entries ih =>
      obtain ⟨first, rest⟩ := List.forall_mem_cons.1 inside
      exact ih (confined.define here entry.1 first) rest

theorem grow (confined : Confined R h₀ h) {outer : EnvironmentId} (here : R (.environment outer)) :
    Confined R h₀ { h with forest := h.forest.grow (some outer) } where
  fresh := confined.fresh
  made p made := by
    have before := confined.made p made
    cases p with
    | environment e => exact before.trans (by simp [Forest.grow])
    | _ => exact before
  closed :=
    { confined.closed with
      enclosing := fun {e outer'} found inner => by
        by_cases new : e = h.forest.next
        · rw [new, Forest.enclosing?, Forest.environment?_grow_next] at found
          exact Option.some.inj found ▸ here
        · rw [Forest.enclosing?, Forest.environment?_grow_of_ne _ _ new] at found
          exact confined.closed.enclosing found inner
      binding := fun {e name v} found inner => by
        by_cases new : e = h.forest.next
        · rw [new, Forest.own?, Forest.environment?_grow_next] at found
          cases found
        · rw [Forest.own?, Forest.environment?_grow_of_ne _ _ new] at found
          exact confined.closed.binding found inner }
  environment e c found outside := by
    have before := confined.environment e c found outside
    rw [h.forest.environment?_grow_of_lt _ (h.forest.lt_size_of_environment? before), before]
  object := confined.object

theorem pushFunction (confined : Confined R h₀ h) {f : Function}
    (here : R (.environment f.closure)) :
    Confined R h₀ { h with functions := h.functions.push f } where
  fresh := confined.fresh
  made p made := by
    have before := confined.made p made
    cases p with
    | function id => exact before.trans (by simp)
    | _ => exact before
  closed :=
    { confined.closed with
      closure := fun {id g} found inner => by
        rcases eq_or_of_getElem?_push found with rfl | found
        · exact here
        · exact confined.closed.closure found inner }
  environment := confined.environment
  object := confined.object

theorem pushClass (confined : Confined R h₀ h) {c : Class}
    (above : ∀ id ∈ c.superclass, R (.class id))
    (methods : ∀ name f, c.methods.get? name = some f → R (.environment f.closure)) :
    Confined R h₀ { h with classes := h.classes.push c } where
  fresh := confined.fresh
  made p made := by
    have before := confined.made p made
    cases p with
    | «class» id => exact before.trans (by simp)
    | _ => exact before
  closed :=
    { confined.closed with
      superclass := fun {id id' c'} found superclass inner => by
        rcases eq_or_of_getElem?_push found with rfl | found
        · exact above id' superclass
        · exact confined.closed.superclass found superclass inner
      method := fun {id c' name f} found own inner => by
        rcases eq_or_of_getElem?_push found with rfl | found
        · exact methods name f own
        · exact confined.closed.method found own inner }
  environment := confined.environment
  object := confined.object

theorem pushObject (confined : Confined R h₀ h) {id : ClassId} (here : R (.class id)) :
    Confined R h₀ { h with objects := h.objects.push ⟨id, []⟩ } where
  fresh := confined.fresh
  made p made := by
    have before := confined.made p made
    cases p with
    | object id => exact before.trans (by simp)
    | _ => exact before
  closed :=
    { confined.closed with
      classOf := fun {id' o} found inner => by
        rcases eq_or_of_getElem?_push found with rfl | found
        · exact here
        · exact confined.closed.classOf found inner
      field := fun {id' o name v} found held inner => by
        rcases eq_or_of_getElem?_push found with rfl | found
        · cases held
        · exact confined.closed.field found held inner }
  environment := confined.environment
  object id' o found outside := by
    have before := confined.object id' o found outside
    have inside := (Array.getElem?_eq_some_iff.1 before).1
    rw [Array.getElem?_push, if_neg (Nat.ne_of_lt inside), before]

theorem setField (confined : Confined R h₀ h) {id : ObjectId} (here : R (.object id))
    (name : String) {v : Value} (inside : v.In R) :
    Confined R h₀ { h with objects := h.objects.modify id.index fun o =>
      { o with fields := o.fields.set name v } } where
  fresh := confined.fresh
  made p made := by
    have before := confined.made p made
    cases p with
    | object id => exact before.trans_eq (by simp)
    | _ => exact before
  closed :=
    { confined.closed with
      classOf := fun {id' o} found inner => by
        obtain ⟨o', before, same, -⟩ := of_setField found
        rw [same]
        exact confined.closed.classOf before inner
      field := fun {id' o other w} found held inner => by
        obtain ⟨o', before, -, fields⟩ := of_setField found
        rcases fields other w held with rfl | held
        · exact inside
        · exact confined.closed.field before held inner }
  environment := confined.environment
  object id' o found outside := by
    have apart : id.index ≠ id'.index := by
      intro same
      have same : id = id' := by cases id; cases id'; simp_all
      exact outside (same ▸ here)
    rw [Array.getElem?_modify, if_neg apart]
    exact confined.object id' o found outside

end Confined

end Heap

end Lox
