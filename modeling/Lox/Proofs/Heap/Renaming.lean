import Mathlib.Logic.Equiv.Basic
import Mathlib.Algebra.Group.End
import Lox.Heap.Environment

/-!
# Renaming in environments

A program in which local names are renamed makes the same environments under other names.
`Table.rename π t` is the table `t` with the renaming `π` applied to its names, and
`Forest.rename ρ f` is the forest `f` with a renaming for every environment.  A renaming is a
permutation of names, so that different names stay different; an environment that is not touched
has the renaming `1`.

Looking up a renamed name in a renamed forest is looking up the name in the forest itself, and every
operation on forests commutes with renaming.
-/

namespace Lox

/-- A renaming of names, which keeps different names apart. -/
abbrev Renaming := Equiv.Perm String

namespace Table

def rename (π : Renaming) (t : Table α) : Table α := t.map fun entry => (π entry.1, entry.2)

@[simp] theorem rename_nil (π : Renaming) : rename π ([] : Table α) = [] := rfl

theorem rename_cons (π : Renaming) (entry : String × α) (t : Table α) :
    rename π (entry :: t) = (π entry.1, entry.2) :: rename π t := rfl

@[simp] theorem rename_one (t : Table α) : rename 1 t = t := by
  simp [rename]

@[simp] theorem get?_rename (π : Renaming) (t : Table α) (name : String) :
    get? (rename π t) (π name) = get? t name := by
  induction t with
  | nil => rfl
  | cons entry t ih =>
      rw [rename_cons, get?, get?, ih]
      simp only [EmbeddingLike.apply_eq_iff_eq]

theorem rename_set (π : Renaming) (t : Table α) (name : String) (value : α) :
    rename π (set t name value) = set (rename π t) (π name) value := by
  induction t with
  | nil => rfl
  | cons entry t ih =>
      rw [rename_cons, set, set]
      by_cases h : entry.1 = name
      · simp [h, rename_cons]
      · simp [h, rename_cons, ih]

/-- A name has a value after an entry was set if it is the name of that entry or had one before. -/
theorem has_set (t : Table α) (name other : String) (value : α) :
    has (set t name value) other = (other == name || has t other) := by
  by_cases h : other = name
  · simp [has, h]
  · simp [has, h, get?_set_of_ne t value h]

end Table

namespace Forest

def rename (ρ : EnvironmentId → Renaming) (f : Forest) : Forest :=
  ⟨f.environments.mapIdx fun i e => { e with bindings := e.bindings.rename (ρ ⟨i⟩) }⟩

variable (f : Forest) (ρ : EnvironmentId → Renaming)

@[simp] theorem next_rename : (f.rename ρ).next = f.next := by
  simp [rename, next]

theorem environment?_rename (id : EnvironmentId) :
    (f.rename ρ).environment? id =
      (f.environment? id).map fun e => { e with bindings := e.bindings.rename (ρ id) } := by
  simp [rename, environment?, Array.getElem?_mapIdx]

@[simp] theorem enclosing?_rename (id : EnvironmentId) :
    (f.rename ρ).enclosing? id = f.enclosing? id := by
  rw [enclosing?, enclosing?, environment?_rename]
  cases f.environment? id <;> rfl

@[simp] theorem own?_rename (id : EnvironmentId) (name : String) :
    (f.rename ρ).own? id (ρ id name) = f.own? id name := by
  rw [own?, own?, environment?_rename]
  cases f.environment? id with
  | none => rfl
  | some e => simp

@[simp] theorem ancestor?_rename (id : EnvironmentId) (distance : Nat) :
    (f.rename ρ).ancestor? id distance = f.ancestor? id distance := by
  induction distance generalizing id with
  | zero => rfl
  | succ distance ih => simp only [ancestor?, enclosing?_rename, ih]

theorem define_rename (id : EnvironmentId) (name : String) (value : Value) :
    (f.define id name value).rename ρ = (f.rename ρ).define id (ρ id name) value := by
  have entries (i : Nat) :
      (((f.define id name value).rename ρ).environment? ⟨i⟩) =
        (((f.rename ρ).define id (ρ id name) value).environment? ⟨i⟩) := by
    rw [environment?_rename, environment?_define, environment?_define, environment?_rename]
    cases f.environment? ⟨i⟩ with
    | none => rfl
    | some e =>
        by_cases h : id = ⟨i⟩
        · subst h
          simp [Table.rename_set]
        · simp [h]
  rw [rename, define]
  refine congrArg Forest.mk (Array.ext_getElem? fun i => ?_)
  exact entries i

/-- The new environment has no names yet, so that its renaming does not show. -/
theorem grow_rename (enclosing : Option EnvironmentId) :
    (f.grow enclosing).rename ρ = (f.rename ρ).grow enclosing := by
  simp [rename, grow]

/-- Only the renamings of environments that were made count. -/
theorem rename_congr {σ : EnvironmentId → Renaming}
    (h : ∀ id : EnvironmentId, id.index < f.environments.size → σ id = ρ id) :
    f.rename σ = f.rename ρ := by
  refine congrArg Forest.mk (Array.ext_getElem? fun i => ?_)
  rw [Array.getElem?_mapIdx, Array.getElem?_mapIdx]
  by_cases hi : i < f.environments.size
  · rw [h ⟨i⟩ hi]
  · rw [Array.getElem?_eq_none (Nat.le_of_not_lt hi)]
    rfl

/-- Without a change of names the forest stays as it is. -/
theorem rename_one (h : ∀ id, ρ id = 1) : f.rename ρ = f := by
  refine congrArg Forest.mk (Array.ext_getElem? fun i => ?_)
  rw [Array.getElem?_mapIdx]
  cases f.environments[i]? with
  | none => rfl
  | some e => simp [h]

/-! An environment is found where it was made, also after others are made. -/

theorem environment?_grow_of_lt (enclosing : Option EnvironmentId) {id : EnvironmentId}
    (h : id.index < f.environments.size) :
    (f.grow enclosing).environment? id = f.environment? id := by
  simp [environment?, grow, Array.getElem?_push, Nat.ne_of_lt h]

theorem environment?_grow_of_ne (enclosing : Option EnvironmentId) {id : EnvironmentId}
    (ne : id ≠ f.next) : (f.grow enclosing).environment? id = f.environment? id := by
  have other : id.index ≠ f.environments.size := fun same => ne (congrArg EnvironmentId.mk same)
  rw [environment?, environment?, grow, Array.getElem?_push, if_neg other]

@[simp] theorem environment?_grow_next (enclosing : Option EnvironmentId) :
    (f.grow enclosing).environment? f.next = some ⟨[], enclosing⟩ := by
  simp [environment?, grow, next]

theorem lt_size_of_environment? {id : EnvironmentId} {e : Environment}
    (h : f.environment? id = some e) : id.index < f.environments.size :=
  (Array.getElem?_eq_some_iff.1 h).1

theorem lt_size_of_enclosing? {id outer : EnvironmentId} (h : f.enclosing? id = some outer) :
    id.index < f.environments.size := by
  obtain ⟨e, he, -⟩ := Option.bind_eq_some_iff.1 h
  exact f.lt_size_of_environment? he

theorem lt_size_of_own? {id : EnvironmentId} {name : String} (h : (f.own? id name).isSome) :
    id.index < f.environments.size := by
  obtain ⟨value, hv⟩ := Option.isSome_iff_exists.1 h
  obtain ⟨e, he, -⟩ := Option.bind_eq_some_iff.1 hv
  exact f.lt_size_of_environment? he

/-- An environment holds a name after a definition if it did before or the definition gave it the
name. -/
theorem isSome_own?_define (id e : EnvironmentId) (name other : String) (value : Value)
    (h : (f.own? e other).isSome) : ((f.define id name value).own? e other).isSome := by
  by_cases he : e = id ∧ other = name
  · obtain ⟨rfl, rfl⟩ := he
    obtain ⟨c, hc⟩ : ∃ c, f.environment? e = some c := by
      obtain ⟨v, hv⟩ := Option.isSome_iff_exists.1 h
      obtain ⟨c, hc, -⟩ := Option.bind_eq_some_iff.1 hv
      exact ⟨c, hc⟩
    rw [f.own?_define_self e other value (by simp [hc])]
    rfl
  · rw [f.own?_define_of_ne value (by tauto)]
    exact h

/-- A definition makes no environment. -/
@[simp] theorem size_define (id : EnvironmentId) (name : String) (value : Value) :
    (f.define id name value).environments.size = f.environments.size := by
  simp [define]

theorem isSome_environment? {id : EnvironmentId} (h : id.index < f.environments.size) :
    (f.environment? id).isSome := by
  simp [environment?, h]

/-! Several definitions in one environment. -/

theorem defineAll_rename (id : EnvironmentId) (entries : List (String × Value)) :
    (f.defineAll id entries).rename ρ =
      (f.rename ρ).defineAll id (entries.map fun p => (ρ id p.1, p.2)) := by
  induction entries generalizing f with
  | nil => rfl
  | cons p entries ih =>
      rw [defineAll, List.map_cons, defineAll, ih, define_rename]

@[simp] theorem size_defineAll (id : EnvironmentId) (entries : List (String × Value)) :
    (f.defineAll id entries).environments.size = f.environments.size := by
  induction entries generalizing f with
  | nil => rfl
  | cons p entries ih => rw [defineAll, ih, size_define]

@[simp] theorem enclosing?_defineAll (id e : EnvironmentId) (entries : List (String × Value)) :
    (f.defineAll id entries).enclosing? e = f.enclosing? e := by
  induction entries generalizing f with
  | nil => rfl
  | cons p entries ih => rw [defineAll, ih, enclosing?_define]

theorem isSome_own?_defineAll (id e : EnvironmentId) (entries : List (String × Value))
    (other : String) (h : (f.own? e other).isSome) :
    ((f.defineAll id entries).own? e other).isSome := by
  induction entries generalizing f with
  | nil => exact h
  | cons p entries ih => exact ih _ (f.isSome_own?_define id e p.1 other p.2 h)

/-- The environment holds all the names afterwards. -/
theorem isSome_own?_defineAll_of_mem {id : EnvironmentId} (hid : id.index < f.environments.size)
    {entries : List (String × Value)} {name : String} (h : name ∈ entries.map Prod.fst) :
    ((f.defineAll id entries).own? id name).isSome := by
  induction entries generalizing f with
  | nil => cases h
  | cons p entries ih =>
      rcases List.mem_cons.1 h with rfl | h
      · refine isSome_own?_defineAll _ id id entries _ ?_
        rw [f.own?_define_self id p.1 p.2 (f.isSome_environment? hid)]
        rfl
      · exact ih _ (by simpa using hid) h

/-! The nearest environment that holds a name. -/

theorem holder?_of_own {id : EnvironmentId} {name : String} (h : (f.own? id name).isSome) :
    f.holder? id name = some id := by
  rw [holder?, holderWithin?, if_pos h]

/-- From an environment that nothing encloses, a name is found in it or nowhere. -/
theorem holder?_of_root {id : EnvironmentId} (root : f.enclosing? id = none) (name : String) :
    f.holder? id name = if (f.own? id name).isSome then some id else none := by
  rw [holder?, holderWithin?, root]
  rfl

theorem get?_of_root {id : EnvironmentId} (root : f.enclosing? id = none) (name : String) :
    f.get? id name = f.own? id name := by
  rw [get?, holder?_of_root f root]
  cases h : f.own? id name <;> simp [h]

end Forest

end Lox
