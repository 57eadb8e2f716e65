import Mathlib.Logic.Relation
import Lox.Evaluation
import Lox.Proofs.Heap.Renaming

/-!
# What can be reached in the heap

A `Place` is something in the heap that refers to other places.  `Heap.Link` lists how one place
refers to another one, and `Heap.Reaches` follows the links.

The operators of the language yield values that refer to nothing (`Value.place?_of_unary`,
`Value.place?_of_binary`).
-/

namespace Lox

/-- Something that refers to others. -/
inductive Place where
  | environment (id : EnvironmentId)
  | function (id : FunctionId)
  | class (id : ClassId)
  | object (id : ObjectId)

def Value.place? : Value → Option Place
  | .function id => some (.function id)
  | .class id => some (.class id)
  | .object id => some (.object id)
  | _ => none

theorem Literal.place?_value (l : Literal) : l.value.place? = none := by
  cases l <;> rfl

theorem Value.place?_of_unary {operator : Token} {v w : Value}
    (h : Value.unary operator v = .ok w) : w.place? = none := by
  unfold Value.unary at h
  split at h
  · split at h <;> cases h
    rfl
  · cases h
    rfl
  · cases h

theorem Value.place?_of_binary {operator : Token} {v v' w : Value}
    (h : Value.binary operator v v' = .ok w) : w.place? = none := by
  unfold Value.binary at h
  split at h
  · cases h
    rfl
  · cases h
    rfl
  · split at h <;> cases h <;> rfl
  · split at h
    · unfold Value.arithmetic at h
      split at h <;> cases h <;> rfl
    · cases h

namespace Heap

inductive Link (h : Heap) : Place → Place → Prop
  | enclosing {e outer : EnvironmentId} : h.forest.enclosing? e = some outer →
      Link h (.environment e) (.environment outer)
  | binding {e : EnvironmentId} {name : String} {v : Value} {p : Place} :
      h.forest.own? e name = some v → v.place? = some p → Link h (.environment e) p
  | closure {id : FunctionId} {f : Function} : h.functions[id.index]? = some f →
      Link h (.function id) (.environment f.closure)
  | superclass {id above : ClassId} {c : Class} : h.classes[id.index]? = some c →
      c.superclass = some above → Link h (.class id) (.class above)
  | method {id : ClassId} {c : Class} {name : String} {f : Function} :
      h.classes[id.index]? = some c → c.methods.get? name = some f →
      Link h (.class id) (.environment f.closure)
  | classOf {id : ObjectId} {o : Object} : h.objects[id.index]? = some o →
      Link h (.object id) (.class o.classId)
  | field {id : ObjectId} {o : Object} {name : String} {v : Value} {p : Place} :
      h.objects[id.index]? = some o → o.fields.get? name = some v → v.place? = some p →
      Link h (.object id) p

def Reaches (h : Heap) : Place → Place → Prop := Relation.ReflTransGen h.Link

def Made (h : Heap) : Place → Prop
  | .environment id => id.index < h.forest.environments.size
  | .function id => id.index < h.functions.size
  | .class id => id.index < h.classes.size
  | .object id => id.index < h.objects.size

theorem Link.made {h : Heap} {p q : Place} (link : h.Link p q) : h.Made p := by
  cases link with
  | enclosing outer => exact h.forest.lt_size_of_enclosing? outer
  | binding own _ => exact h.forest.lt_size_of_own? (Option.isSome_iff_exists.2 ⟨_, own⟩)
  | closure found => exact (Array.getElem?_eq_some_iff.1 found).1
  | superclass found _ => exact (Array.getElem?_eq_some_iff.1 found).1
  | method found _ => exact (Array.getElem?_eq_some_iff.1 found).1
  | classOf found => exact (Array.getElem?_eq_some_iff.1 found).1
  | field found _ _ => exact (Array.getElem?_eq_some_iff.1 found).1

end Heap

end Lox
