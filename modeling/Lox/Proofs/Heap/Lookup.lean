import Mathlib.Order.Bounds.Basic
import Mathlib.Order.WellFounded
import Lox.Proofs.Heap.Renaming

/-!
# Looking a name up, and looking at a distance

A name is looked up in the nearest environment outward that holds it.  That environment is the one
at the least distance at which the name is found (`Forest.Nearest`), as long as environments are
enclosed by older ones: the search is bounded by the number of older environments, which is enough
then (`Forest.holder?_eq_some_iff`).  Environments that come about by making and changing them are
enclosed in this way, whatever is done to them (`Forest.Built.founded`).

So a look-up by name is one at the least distance, and so is an assignment.  It changes one binding.
All environments that see this binding are affected, and nothing else is
(`Forest.Overwritten`, `Forest.lookups_agree`).
-/

namespace Lox

namespace Forest

/-! ### Making and changing environments -/

/-- What can be done to environments. -/
inductive Change where
  | new
  | child (outer : EnvironmentId)
  | define (id : EnvironmentId) (name : String) (value : Value)
  | assign (id : EnvironmentId) (name : String) (value : Value)
  | assignAt (id : EnvironmentId) (distance : Nat) (name : String) (value : Value)

/-- The environment that a change is made in or from. -/
def Change.place? : Change → Option EnvironmentId
  | .new => none
  | .child outer => some outer
  | .define id _ _ => some id
  | .assign id _ _ => some id
  | .assignAt id _ _ _ => some id

/-- The environments after a change.  An assignment that fails leaves them as they are. -/
def after (f : Forest) : Change → Forest
  | .new => f.grow none
  | .child outer => f.grow (some outer)
  | .define id name value => f.define id name value
  | .assign id name value => (f.assign? id name value).getD f
  | .assignAt id distance name value => (f.assignAt? id distance name value).getD f

/-- The environments come about by changes to environments that were made before. -/
inductive Built : Forest → Prop
  | empty : Built .empty
  | after {f : Forest} (built : Built f) (change : Change)
      (made : ∀ id ∈ change.place?, id.index < f.environments.size) : Built (f.after change)

/-! ### The nearest environment that holds a name -/

def distances (f : Forest) (e : EnvironmentId) (name : String) : Set Nat :=
  {d | (f.getAt? e d name).isSome}

/-- The environment at the least distance at which the name is found. -/
def Nearest (f : Forest) (e : EnvironmentId) (name : String) (holder : EnvironmentId) : Prop :=
  ∃ d, IsLeast (f.distances e name) d ∧ f.ancestor? e d = some holder

/-- Environments are enclosed by older ones. -/
def Founded (f : Forest) : Prop :=
  ∀ e outer : EnvironmentId, f.enclosing? e = some outer → outer.index < e.index

variable {f : Forest} {e outer holder : EnvironmentId} {name : String}

theorem mem_distances {d : Nat} : d ∈ f.distances e name ↔ (f.getAt? e d name).isSome := Iff.rfl

theorem ancestor?_add (f : Forest) (e : EnvironmentId) (m n : Nat) :
    f.ancestor? e (m + n) = (f.ancestor? e m).bind fun e' => f.ancestor? e' n := by
  induction m generalizing e with
  | zero => rw [Nat.zero_add, ancestor?, Option.bind_some]
  | succ m ih =>
      rw [Nat.add_right_comm, ancestor?, ancestor?, Option.bind_assoc]
      exact congrArg _ (funext ih)

theorem getAt?_of_ancestor? {d : Nat} (reached : f.ancestor? e d = some holder) (name : String) :
    f.getAt? e d name = f.own? holder name := by
  rw [getAt?, reached, Option.bind_some]

theorem getAt?_succ (encloses : f.enclosing? e = some outer) (d : Nat) (name : String) :
    f.getAt? e (d + 1) name = f.getAt? outer d name := by
  rw [getAt?, ancestor?, encloses, Option.bind_some, getAt?]

theorem getAt?_succ_of_root (root : f.enclosing? e = none) (d : Nat) (name : String) :
    f.getAt? e (d + 1) name = none := by
  rw [getAt?, ancestor?, root, Option.bind_none, Option.bind_none]

theorem isLeast_zero (held : (f.own? e name).isSome) : IsLeast (f.distances e name) 0 :=
  ⟨held, fun _ _ => Nat.zero_le _⟩

/-- Where the name is not held, the distances are those from the enclosing environment and one
more. -/
theorem isLeast_succ_iff (free : ¬ (f.own? e name).isSome)
    (encloses : f.enclosing? e = some outer) {d : Nat} :
    IsLeast (f.distances e name) (d + 1) ↔ IsLeast (f.distances outer name) d := by
  have shift (d : Nat) : d + 1 ∈ f.distances e name ↔ d ∈ f.distances outer name := by
    rw [mem_distances, mem_distances, getAt?_succ encloses]
  constructor
  · rintro ⟨found, least⟩
    refine ⟨(shift d).1 found, fun d' found' => ?_⟩
    exact Nat.le_of_succ_le_succ (least ((shift d').2 found'))
  · rintro ⟨found, least⟩
    refine ⟨(shift d).2 found, fun d' found' => ?_⟩
    cases d' with
    | zero => exact absurd found' free
    | succ d' => exact Nat.succ_le_succ (least ((shift d').1 found'))

theorem nearest_of_own (held : (f.own? e name).isSome) :
    f.Nearest e name holder ↔ e = holder := by
  constructor
  · rintro ⟨d, least, reached⟩
    obtain rfl := least.unique (isLeast_zero held)
    exact Option.some.inj reached
  · rintro rfl
    exact ⟨0, isLeast_zero held, rfl⟩

theorem not_nearest_of_root (free : ¬ (f.own? e name).isSome) (root : f.enclosing? e = none) :
    ¬ f.Nearest e name holder := by
  rintro ⟨d, ⟨found, -⟩, -⟩
  cases d with
  | zero => exact free found
  | succ d =>
      rw [mem_distances, getAt?_succ_of_root root] at found
      cases found

theorem nearest_of_enclosing (free : ¬ (f.own? e name).isSome)
    (encloses : f.enclosing? e = some outer) :
    f.Nearest e name holder ↔ f.Nearest outer name holder := by
  have further (d : Nat) : f.ancestor? e (d + 1) = f.ancestor? outer d := by
    rw [ancestor?, encloses, Option.bind_some]
  constructor
  · rintro ⟨d, least, reached⟩
    cases d with
    | zero => exact absurd least.1 free
    | succ d => exact ⟨d, (isLeast_succ_iff free encloses).1 least, (further d).symm.trans reached⟩
  · rintro ⟨d, least, reached⟩
    exact ⟨d + 1, (isLeast_succ_iff free encloses).2 least, (further d).trans reached⟩

/-- A search with a bound that is large enough finds the nearest environment that holds a name. -/
theorem Founded.holderWithin?_eq_some_iff (founded : f.Founded) {bound : Nat}
    (enough : e.index < bound) :
    f.holderWithin? bound e name = some holder ↔ f.Nearest e name holder := by
  induction bound generalizing e with
  | zero => exact absurd enough (Nat.not_lt_zero _)
  | succ bound ih =>
      rw [holderWithin?]
      by_cases held : (f.own? e name).isSome
      · rw [if_pos held, nearest_of_own held, Option.some.injEq]
      · rw [if_neg held]
        cases encloses : f.enclosing? e with
        | none => simp [not_nearest_of_root held encloses]
        | some outer =>
            have older := founded e outer encloses
            rw [Option.bind_some, nearest_of_enclosing held encloses]
            exact ih (by omega)

theorem Founded.holder?_eq_some_iff (founded : f.Founded) :
    f.holder? e name = some holder ↔ f.Nearest e name holder :=
  founded.holderWithin?_eq_some_iff (Nat.lt_succ_self _)

theorem Nearest.isSome_own? (nearest : f.Nearest e name holder) : (f.own? holder name).isSome := by
  obtain ⟨d, ⟨found, -⟩, reached⟩ := nearest
  rwa [mem_distances, getAt?_of_ancestor? reached] at found

/-- Where a name is found at some distance, there is a nearest environment that holds it. -/
theorem exists_nearest {d : Nat} (found : d ∈ f.distances e name) :
    ∃ holder, f.Nearest e name holder := by
  obtain ⟨least, mem, min⟩ := Nat.lt_wfRel.wf.has_min (f.distances e name) ⟨d, found⟩
  obtain ⟨v, read⟩ := Option.isSome_iff_exists.1 mem
  obtain ⟨holder, reached, -⟩ := Option.bind_eq_some_iff.1 read
  exact ⟨holder, least, ⟨mem, fun d' found' => Nat.le_of_not_lt (min d' found')⟩, reached⟩

theorem Founded.holder?_eq_none_iff (founded : f.Founded) :
    f.holder? e name = none ↔ ∀ d, f.getAt? e d name = none := by
  constructor
  · intro none d
    by_contra some
    obtain ⟨holder, nearest⟩ :=
      exists_nearest (mem_distances.2 (Option.isSome_iff_ne_none.2 some))
    rw [founded.holder?_eq_some_iff.2 nearest] at none
    cases none
  · intro none
    refine Option.eq_none_iff_forall_ne_some.2 fun holder found => ?_
    obtain ⟨d, ⟨found, -⟩, -⟩ := founded.holder?_eq_some_iff.1 found
    rw [mem_distances, none d] at found
    cases found

/-! ### Environments are enclosed by older ones -/

theorem enclosing?_grow (f : Forest) (outer? : Option EnvironmentId) (e : EnvironmentId) :
    (f.grow outer?).enclosing? e = if e = f.next then outer? else f.enclosing? e := by
  by_cases new : e = f.next
  · rw [if_pos new, new, enclosing?, environment?_grow_next, Option.bind_some]
  · rw [if_neg new, enclosing?, enclosing?, environment?_grow_of_ne f outer? new]

theorem Founded.define (founded : f.Founded) (id : EnvironmentId) (name : String) (value : Value) :
    (f.define id name value).Founded := by
  intro e outer encloses
  rw [enclosing?_define] at encloses
  exact founded e outer encloses

theorem Founded.grow (founded : f.Founded) {outer? : Option EnvironmentId}
    (made : ∀ outer ∈ outer?, outer.index < f.environments.size) : (f.grow outer?).Founded := by
  intro e outer encloses
  rw [enclosing?_grow] at encloses
  split at encloses
  · rename_i new
    rw [new]
    exact made outer encloses
  · exact founded e outer encloses

theorem Built.founded (built : f.Built) : f.Founded := by
  induction built with
  | empty =>
      intro e outer encloses
      cases encloses
  | @after f built change made founded =>
      have written (changed : Option EnvironmentId) (name : String) (value : Value) :
          ((changed.map fun id => f.define id name value).getD f).Founded := by
        cases changed with
        | none => exact founded
        | some id => exact founded.define id name value
      cases change with
      | new => exact founded.grow fun _ h => by cases h
      | child outer => exact founded.grow made
      | define id name value => exact founded.define id name value
      | assign id name value => exact written _ name value
      | assignAt id distance name value => exact written _ name value

/-! ### One binding is changed -/

/-- The other forest is this one with one binding changed: that of the name in its holder.  Whoever
sees this binding, by name or at a distance, reads the value, and nothing else is different. -/
structure Overwritten (f : Forest) (holder : EnvironmentId) (name : String) (value : Value)
    (f' : Forest) : Prop where
  size : f'.environments.size = f.environments.size
  ancestor : ∀ e d, f'.ancestor? e d = f.ancestor? e d
  seen : ∀ e, f.Nearest e name holder → f'.get? e name = some value
  unseen : ∀ e other, (other = name → ¬ f.Nearest e name holder) →
    f'.get? e other = f.get? e other
  seenAt : ∀ e d, f.ancestor? e d = some holder → f'.getAt? e d name = some value
  unseenAt : ∀ e d other, (other = name → f.ancestor? e d ≠ some holder) →
    f'.getAt? e d other = f.getAt? e d other

theorem ancestor?_define (f : Forest) (id : EnvironmentId) (name : String) (value : Value)
    (e : EnvironmentId) (d : Nat) : (f.define id name value).ancestor? e d = f.ancestor? e d := by
  induction d generalizing e with
  | zero => rfl
  | succ d ih =>
      rw [ancestor?, ancestor?, enclosing?_define]
      exact congrArg _ (funext ih)

theorem holder?_define_of_held (held : (f.own? holder name).isSome) (value : Value)
    (e : EnvironmentId) (other : String) :
    (f.define holder name value).holder? e other = f.holder? e other := by
  have same (e : EnvironmentId) : ((f.define holder name value).own? e other).isSome =
      (f.own? e other).isSome := by
    by_cases here : e = holder ∧ other = name
    · obtain ⟨rfl, rfl⟩ := here
      rw [held, isSome_own?_define f e e other other value held]
    · rw [own?_define_of_ne f value (by tauto)]
  rw [holder?, holder?]
  generalize e.index + 1 = bound
  induction bound generalizing e with
  | zero => rfl
  | succ bound ih =>
      rw [holderWithin?, holderWithin?, same, enclosing?_define]
      exact congrArg _ (congrArg _ (funext ih))

/-- To define a name where it is held is to overwrite it. -/
theorem Founded.overwritten_define (founded : f.Founded) (held : (f.own? holder name).isSome)
    (value : Value) : f.Overwritten holder name value (f.define holder name value) := by
  have here : (f.define holder name value).own? holder name = some value :=
    f.own?_define_self holder name value (f.isSome_environment? (f.lt_size_of_own? held))
  have elsewhere (holder' : EnvironmentId) (other : String) (ne : other = name → holder' ≠ holder) :
      (f.define holder name value).own? holder' other = f.own? holder' other :=
    f.own?_define_of_ne value (by tauto)
  refine ⟨f.size_define holder name value, f.ancestor?_define holder name value, ?_, ?_, ?_, ?_⟩
  · intro e nearest
    rw [get?, holder?_define_of_held held, founded.holder?_eq_some_iff.2 nearest]
    exact here
  · intro e other unseen
    rw [get?, get?, holder?_define_of_held held]
    refine Option.bind_congr fun holder' found => elsewhere holder' other ?_
    rintro rfl rfl
    exact unseen rfl (founded.holder?_eq_some_iff.1 found)
  · intro e d reached
    rw [getAt?, ancestor?_define, reached]
    exact here
  · intro e d other unseen
    rw [getAt?, getAt?, ancestor?_define]
    refine Option.bind_congr fun holder' reached => elsewhere holder' other ?_
    rintro rfl rfl
    exact unseen rfl reached

/-! ### By name and at the least distance -/

theorem holderAt?_eq_some_iff {d : Nat} :
    f.holderAt? e d name = some holder ↔
      f.ancestor? e d = some holder ∧ (f.own? holder name).isSome :=
  Option.filter_eq_some_iff

theorem assignAt?_eq_none_iff {d : Nat} {value : Value} :
    f.assignAt? e d name value = none ↔ f.getAt? e d name = none := by
  rw [assignAt?, Option.map_eq_none_iff, getAt?, holderAt?]
  cases f.ancestor? e d with
  | none => simp
  | some holder => cases held : f.own? holder name <;> simp [held]

namespace Founded

theorem get?_eq_some_iff (founded : f.Founded) {v : Value} :
    f.get? e name = some v ↔
      ∃ d, IsLeast (f.distances e name) d ∧ f.getAt? e d name = some v := by
  rw [get?, Option.bind_eq_some_iff]
  constructor
  · rintro ⟨holder, found, held⟩
    obtain ⟨d, least, reached⟩ := founded.holder?_eq_some_iff.1 found
    exact ⟨d, least, (getAt?_of_ancestor? reached name).trans held⟩
  · rintro ⟨d, least, read⟩
    obtain ⟨holder, reached, held⟩ := Option.bind_eq_some_iff.1 read
    exact ⟨holder, founded.holder?_eq_some_iff.2 ⟨d, least, reached⟩, held⟩

theorem get?_eq_none_iff (founded : f.Founded) :
    f.get? e name = none ↔ ∀ d, f.getAt? e d name = none := by
  rw [← founded.holder?_eq_none_iff, get?, Option.bind_eq_none_iff]
  constructor
  · intro fails
    refine Option.eq_none_iff_forall_ne_some.2 fun holder found => ?_
    have held := (founded.holder?_eq_some_iff.1 found).isSome_own?
    rw [fails holder found] at held
    cases held
  · intro none holder found
    rw [none] at found
    cases found

theorem assign?_eq_none_iff (founded : f.Founded) {value : Value} :
    f.assign? e name value = none ↔ ∀ d, f.getAt? e d name = none := by
  rw [assign?, Option.map_eq_none_iff, founded.holder?_eq_none_iff]

theorem assign?_eq_some_iff (founded : f.Founded) {value : Value} {f' : Forest} :
    f.assign? e name value = some f' ↔
      ∃ d, IsLeast (f.distances e name) d ∧ f.assignAt? e d name value = some f' := by
  rw [assign?, Option.map_eq_some_iff]
  constructor
  · rintro ⟨holder, found, rfl⟩
    have nearest := founded.holder?_eq_some_iff.1 found
    have held := nearest.isSome_own?
    obtain ⟨d, least, reached⟩ := nearest
    refine ⟨d, least, ?_⟩
    rw [assignAt?, holderAt?_eq_some_iff.2 ⟨reached, held⟩, Option.map_some]
  · rintro ⟨d, least, assigned⟩
    obtain ⟨holder, found, rfl⟩ := Option.map_eq_some_iff.1 assigned
    have reached := (holderAt?_eq_some_iff.1 found).1
    exact ⟨holder, founded.holder?_eq_some_iff.2 ⟨d, least, reached⟩, rfl⟩

theorem exists_overwritten (founded : f.Founded) {value : Value} {f' : Forest}
    (assigned : f.assign? e name value = some f') :
    ∃ holder, f.Nearest e name holder ∧ f.Overwritten holder name value f' := by
  obtain ⟨holder, found, rfl⟩ := Option.map_eq_some_iff.1 assigned
  have nearest := founded.holder?_eq_some_iff.1 found
  exact ⟨holder, nearest, founded.overwritten_define nearest.isSome_own? value⟩

theorem exists_overwrittenAt (founded : f.Founded) {value : Value} {f' : Forest} {d : Nat}
    (assigned : f.assignAt? e d name value = some f') :
    ∃ holder, f.ancestor? e d = some holder ∧ f.Overwritten holder name value f' := by
  obtain ⟨holder, found, rfl⟩ := Option.map_eq_some_iff.1 assigned
  obtain ⟨reached, held⟩ := holderAt?_eq_some_iff.1 found
  exact ⟨holder, reached, founded.overwritten_define held value⟩

end Founded

/-- A name is read and assigned as it is at the least distance at which it is found.  The assignment
overwrites the one binding that is found there, and one that fails changes nothing. -/
structure LookupsAgree (f : Forest) (e : EnvironmentId) (name : String) (value : Value) : Prop where
  get : ∀ v, f.get? e name = some v ↔
    ∃ d, IsLeast (f.distances e name) d ∧ f.getAt? e d name = some v
  getFails : f.get? e name = none ↔ ∀ d, f.getAt? e d name = none
  assign : ∀ f', f.assign? e name value = some f' ↔
    ∃ d, IsLeast (f.distances e name) d ∧ f.assignAt? e d name value = some f'
  assignFails : f.assign? e name value = none ↔ ∀ d, f.getAt? e d name = none
  assignAtFails : ∀ d, f.assignAt? e d name value = none ↔ f.getAt? e d name = none
  overwritten : ∀ f', f.assign? e name value = some f' →
    ∃ holder, f.Nearest e name holder ∧ f.Overwritten holder name value f'
  overwrittenAt : ∀ d f', f.assignAt? e d name value = some f' →
    ∃ holder, f.ancestor? e d = some holder ∧ f.Overwritten holder name value f'
  unchanged : f.assign? e name value = none → f.after (.assign e name value) = f
  unchangedAt : ∀ d, f.assignAt? e d name value = none → f.after (.assignAt e d name value) = f
  ancestor : ∀ m n, f.ancestor? e (m + n) = (f.ancestor? e m).bind fun e' => f.ancestor? e' n

/-- Looking a name up finds what is found at the least distance, among all environments that come
about by making and changing them. -/
theorem lookups_agree {f : Forest} (built : f.Built) (e : EnvironmentId) (name : String)
    (value : Value) : f.LookupsAgree e name value where
  get _ := built.founded.get?_eq_some_iff
  getFails := built.founded.get?_eq_none_iff
  assign _ := built.founded.assign?_eq_some_iff
  assignFails := built.founded.assign?_eq_none_iff
  assignAtFails _ := assignAt?_eq_none_iff
  overwritten _ := built.founded.exists_overwritten
  overwrittenAt _ _ := built.founded.exists_overwrittenAt
  unchanged fails := by rw [after, fails, Option.getD_none]
  unchangedAt d fails := by rw [after, fails, Option.getD_none]
  ancestor := f.ancestor?_add e

/-- Two environments beside each other see one binding two distances out, and an assignment from one
is read from the other.  A name that only one of them holds is not found from the other. -/
theorem lookups_agree_siblings :
    let f := [.new, .define ⟨0⟩ "x" .nil, .child ⟨0⟩, .child ⟨1⟩, .child ⟨1⟩,
      .define ⟨2⟩ "y" .nil, .assign ⟨3⟩ "y" (.bool true), .assignAt ⟨3⟩ 2 "x" (.bool false)].foldl
        after empty
    f.Built ∧ f.LookupsAgree ⟨2⟩ "x" (.bool true) ∧ f.LookupsAgree ⟨3⟩ "y" .nil ∧
      f.get? ⟨2⟩ "x" = some (.bool false) ∧ f.assign? ⟨3⟩ "y" .nil = none ∧
      (f.assign? ⟨2⟩ "x" (.bool true)).bind (·.getAt? ⟨3⟩ 2 "x") = some (.bool true) := by
  intro f
  have built : f.Built := by
    refine .after (.after (.after (.after (.after (.after (.after (.after .empty .new ?_)
      (.define ⟨0⟩ "x" .nil) ?_) (.child ⟨0⟩) ?_) (.child ⟨1⟩) ?_) (.child ⟨1⟩) ?_)
      (.define ⟨2⟩ "y" .nil) ?_) (.assign ⟨3⟩ "y" (.bool true)) ?_)
      (.assignAt ⟨3⟩ 2 "x" (.bool false)) ?_
    all_goals decide
  exact ⟨built, lookups_agree built ⟨2⟩ "x" _, lookups_agree built ⟨3⟩ "y" _, by decide, by decide,
    by decide⟩

end Forest

end Lox
