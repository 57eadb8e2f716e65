import Lox.Proofs.Heap.Renaming
import Lox.Scope.Analysis

/-!
# Worlds

Two programs that differ in names and places only make the same environments when they are run side
by side.  A `World` is what the two runs have in common at one moment: the environments of the first
run, how each is renamed in the second one, and the environment that both are in.  Later worlds have
more environments, and these hold more names, but what an environment encloses and how it is renamed
stays as it was.

A `Layout` is the static side of this: the scopes around a point of the first program, and the
renaming of each.  `World.Chain` says that the environments outward from a given one are as a layout
tells: one for each scope, which holds the names that are completely declared there, and the
environment of the whole program after the last of them.
-/

namespace Lox

/-- The scopes around a point of a program, and how the names of each of them are renamed. -/
structure Layout where
  scopes : Scopes
  renamings : List Renaming

namespace Layout

def top : Layout := ⟨[], []⟩

def push (l : Layout) (scope : Scope) (π : Renaming) : Layout :=
  ⟨scope :: l.scopes, π :: l.renamings⟩

def declare (l : Layout) (name : String) : Layout := { l with scopes := l.scopes.declare name }

def introduce (l : Layout) (name : Token) : Layout :=
  { l with scopes := l.scopes.introduce name }

/-- The renaming of the innermost scope.  The names of the whole program are never renamed. -/
def here (l : Layout) : Renaming := l.renamings.headD 1

end Layout

/-- What two runs side by side have in common. -/
structure World where
  /-- The environments of the first run. -/
  forest : Forest
  /-- How the names of each environment are called in the second run. -/
  names : EnvironmentId → Renaming
  globals : EnvironmentId
  current : EnvironmentId

namespace World

def define (w : World) (id : EnvironmentId) (name : String) (value : Value) : World :=
  { w with forest := w.forest.define id name value }

def defineAll (w : World) (id : EnvironmentId) (entries : List (String × Value)) : World :=
  { w with forest := w.forest.defineAll id entries }

def grow (w : World) (enclosing : EnvironmentId) (π : Renaming) : World :=
  { w with
    forest := w.forest.grow (some enclosing)
    names := Function.update w.names w.forest.next π }

def enter (w : World) (id : EnvironmentId) : World := { w with current := id }

@[simp] theorem names_grow (w : World) (enclosing : EnvironmentId) (π : Renaming) :
    (w.grow enclosing π).names w.forest.next = π := by
  simp [grow]

/-- How a world may become another one. -/
structure Le (w w' : World) : Prop where
  size : w.forest.environments.size ≤ w'.forest.environments.size
  enclosing : ∀ id outer, w.forest.enclosing? id = some outer →
    w'.forest.enclosing? id = some outer
  own : ∀ id name, (w.forest.own? id name).isSome → (w'.forest.own? id name).isSome
  names : ∀ id : EnvironmentId, id.index < w.forest.environments.size →
    w'.names id = w.names id
  globals : w'.globals = w.globals
  current : w'.current = w.current

instance : LE World := ⟨Le⟩

theorem le_refl (w : World) : w ≤ w :=
  ⟨Nat.le_refl _, fun _ _ h => h, fun _ _ h => h, fun _ _ => rfl, rfl, rfl⟩

theorem le_trans {u v w : World} (huv : u ≤ v) (hvw : v ≤ w) : u ≤ w where
  size := Nat.le_trans huv.size hvw.size
  enclosing id outer h := hvw.enclosing id outer (huv.enclosing id outer h)
  own id name h := hvw.own id name (huv.own id name h)
  names id h := (hvw.names id (Nat.lt_of_lt_of_le h huv.size)).trans (huv.names id h)
  globals := hvw.globals.trans huv.globals
  current := hvw.current.trans huv.current

theorem le_define (w : World) (id : EnvironmentId) (name : String) (value : Value) :
    w ≤ w.define id name value where
  size := by simp [define]
  enclosing id' outer h := by simpa [define] using h
  own e other h := w.forest.isSome_own?_define id e name other value h
  names _ _ := rfl
  globals := rfl
  current := rfl

theorem le_defineAll (w : World) (id : EnvironmentId) (entries : List (String × Value)) :
    w ≤ w.defineAll id entries where
  size := by simp [defineAll]
  enclosing id' outer h := by simpa [defineAll] using h
  own e other h := w.forest.isSome_own?_defineAll id e entries other h
  names _ _ := rfl
  globals := rfl
  current := rfl

theorem le_grow (w : World) (enclosing : EnvironmentId) (π : Renaming) :
    w ≤ w.grow enclosing π where
  size := by simp [grow, Forest.grow]
  enclosing id outer h := by
    have hid := w.forest.lt_size_of_enclosing? h
    rw [Forest.enclosing?, grow, Forest.environment?_grow_of_lt _ _ hid]
    exact h
  own id name h := by
    have hid := w.forest.lt_size_of_own? h
    rw [Forest.own?, grow, Forest.environment?_grow_of_lt _ _ hid]
    exact h
  names id h := by
    have hne : id ≠ w.forest.next := by
      rintro rfl
      exact Nat.lt_irrefl _ h
    simp [grow, hne]
  globals := rfl
  current := rfl

/-- Leaving an environment goes back to a world later than the one it was entered from. -/
theorem le_enter_of_enter_le {w w' : World} {id : EnvironmentId} (h : w.enter id ≤ w') :
    w ≤ w'.enter w.current :=
  ⟨h.size, h.enclosing, h.own, h.names, h.globals, rfl⟩

/-- The environments outward from one, for scopes and their renamings. -/
def Chain (w : World) : Scopes → List Renaming → EnvironmentId → Prop
  | [], [], id => id = w.globals
  | scope :: outer, π :: renamings, id =>
    w.names id = π ∧
      (∀ name, scope.get? name = some .complete → (w.forest.own? id name).isSome) ∧
      ∃ e, w.forest.enclosing? id = some e ∧ w.Chain outer renamings e
  | _, _, _ => False

def At (w : World) (l : Layout) : Prop := w.Chain l.scopes l.renamings w.current

@[simp] theorem chain_enter (w : World) (e : EnvironmentId) (S : Scopes) (ρ : List Renaming)
    (id : EnvironmentId) : (w.enter e).Chain S ρ id ↔ w.Chain S ρ id := by
  induction S generalizing ρ id with
  | nil => cases ρ <;> exact Iff.rfl
  | cons scope S ih =>
      cases ρ with
      | nil => exact Iff.rfl
      | cons π ρ => simp only [Chain, ih]; exact Iff.rfl

theorem Chain.mono {w w' : World} (h : w ≤ w') {S : Scopes} {ρ : List Renaming}
    {id : EnvironmentId} (chain : w.Chain S ρ id) : w'.Chain S ρ id := by
  induction S generalizing ρ id with
  | nil =>
      cases ρ with
      | nil => exact (show id = w.globals from chain).trans h.globals.symm
      | cons => exact chain
  | cons scope S ih =>
      cases ρ with
      | nil => exact chain
      | cons π ρ =>
          obtain ⟨hπ, held, e, he, outer⟩ := chain
          have hid := w.forest.lt_size_of_enclosing? he
          exact ⟨(h.names id hid).trans hπ, fun name hn => h.own id name (held name hn), e,
            h.enclosing id e he, ih outer⟩

theorem At.mono {w w' : World} (h : w ≤ w') {l : Layout} (place : w.At l) : w'.At l := by
  rw [At, h.current]
  exact Chain.mono h place

/-- The chain depends on the completely declared names of the innermost scope only. -/
theorem Chain.of_complete {w : World} {scope scope' : Scope} {S : Scopes} {ρ : List Renaming}
    {id : EnvironmentId} (chain : w.Chain (scope :: S) ρ id)
    (h : ∀ name, scope'.get? name = some .complete →
      scope.get? name = some .complete ∨ (w.forest.own? id name).isSome) :
    w.Chain (scope' :: S) ρ id := by
  cases ρ with
  | nil => exact chain
  | cons π ρ =>
      obtain ⟨hπ, held, outer⟩ := chain
      exact ⟨hπ, fun name hn => (h name hn).elim (held name) fun own => own, outer⟩

/-- The environment at a distance is renamed as the layout tells. -/
theorem Chain.ancestor? {w : World} {S : Scopes} {ρ : List Renaming} {id : EnvironmentId}
    (chain : w.Chain S ρ id) {d : Nat} {π : Renaming} (h : ρ[d]? = some π) :
    ∃ e, w.forest.ancestor? id d = some e ∧ w.names e = π := by
  induction S generalizing ρ id d with
  | nil =>
      cases ρ with
      | nil => cases h
      | cons => exact chain.elim
  | cons scope S ih =>
      cases ρ with
      | nil => cases h
      | cons π' ρ =>
          obtain ⟨hπ, held, e, he, outer⟩ := chain
          cases d with
          | zero => exact ⟨id, rfl, hπ.trans (Option.some.inj h)⟩
          | succ d =>
              obtain ⟨e', he', hπ'⟩ := ih outer h
              exact ⟨e', by rw [Forest.ancestor?, he]; exact he', hπ'⟩

/-- There are as many environments as scopes, and then that of the whole program. -/
theorem Chain.ancestor?_length {w : World} {S : Scopes} {ρ : List Renaming} {id : EnvironmentId}
    (chain : w.Chain S ρ id) : w.forest.ancestor? id S.length = some w.globals := by
  induction S generalizing ρ id with
  | nil =>
      cases ρ with
      | nil => rw [show id = w.globals from chain]; rfl
      | cons => exact chain.elim
  | cons scope S ih =>
      cases ρ with
      | nil => exact chain.elim
      | cons π ρ =>
          obtain ⟨-, -, e, he, outer⟩ := chain
          rw [List.length_cons, Forest.ancestor?, he]
          exact ih outer

/-- An environment holds the names that are declared completely in its scope. -/
theorem Chain.holderAt? {w : World} {S : Scopes} {ρ : List Renaming} {id : EnvironmentId}
    (chain : w.Chain S ρ id) {i : Nat} {scope : Scope} {name : String} (hi : S[i]? = some scope)
    (complete : scope.get? name = some .complete) : (w.forest.holderAt? id i name).isSome := by
  induction S generalizing ρ id i with
  | nil => cases hi
  | cons inner S ih =>
      cases ρ with
      | nil => exact chain.elim
      | cons π ρ =>
          obtain ⟨-, held, e, he, outer⟩ := chain
          cases i with
          | zero =>
              have own := held name (by rwa [← Option.some.inj hi] at complete)
              rw [Forest.holderAt?, Forest.ancestor?, Option.filter_some, if_pos own]
              rfl
          | succ i =>
              rw [Forest.holderAt?, Forest.ancestor?, he]
              exact ih outer hi

/-- The name of a variable of the innermost scope, in the current environment. -/
theorem At.here {w : World} {l : Layout} (place : w.At l) (root : w.names w.globals = 1) :
    w.names w.current = l.here := by
  obtain ⟨S, ρ⟩ := l
  cases S with
  | nil =>
      cases ρ with
      | nil => rw [show w.current = w.globals from place, root]; rfl
      | cons => exact place.elim
  | cons scope S =>
      cases ρ with
      | nil => exact place.elim
      | cons π ρ => exact place.1

theorem At.declare {w : World} {l : Layout} (place : w.At l) (name : String) :
    w.At (l.declare name) := by
  obtain ⟨S, ρ⟩ := l
  cases S with
  | nil => exact place
  | cons scope S =>
      refine Chain.of_complete place fun other h => Or.inl ?_
      by_cases hs : scope.has name
      · simpa [hs] using h
      · by_cases hn : other = name
        · simp [hs, hn] at h
        · simpa [hs, Table.get?_set_of_ne _ _ hn] using h

/-- After the declared name is defined, the current environment holds it. -/
theorem At.introduce {w : World} {l : Layout} (place : w.At l) (name : Token)
    (held : l.scopes ≠ [] → (w.forest.own? w.current name.lexeme).isSome) :
    w.At (l.introduce name) := by
  obtain ⟨S, ρ⟩ := l
  cases S with
  | nil => exact place
  | cons scope S =>
      refine Chain.of_complete (At.declare place name.lexeme) fun other h => ?_
      by_cases hn : other = name.lexeme
      · exact Or.inr (hn ▸ held (List.cons_ne_nil _ _))
      · exact Or.inl (by simpa [Table.get?_set_of_ne _ _ hn] using h)

/-- A new environment starts a chain with an empty scope. -/
theorem Chain.grow {w : World} {l : Layout} {id : EnvironmentId}
    (chain : w.Chain l.scopes l.renamings id) (π : Renaming) :
    (w.grow id π).Chain (l.push [] π).scopes (l.push [] π).renamings w.forest.next := by
  refine ⟨by simp [World.grow], fun name h => by simp at h, id, ?_, ?_⟩
  · simp [World.grow, Forest.enclosing?]
  · exact Chain.mono (w.le_grow id π) chain

/-- A new environment that holds one word is as the scope of that word tells. -/
theorem Chain.holding {w : World} {l : Layout} {id : EnvironmentId}
    (chain : w.Chain l.scopes l.renamings id) (word : String) (value : Value) :
    ((w.grow id 1).define w.forest.next word value).Chain (l.push (Scope.holding word) 1).scopes
      (l.push (Scope.holding word) 1).renamings w.forest.next := by
  refine Chain.of_complete (Chain.mono (le_define _ _ _ _) (chain.grow 1)) fun name hn => Or.inr ?_
  by_cases hname : word = name
  · subst hname
    rw [define, Forest.own?_define_self _ _ _ _ (by simp [World.grow])]
    rfl
  · simp [Scope.holding, Table.get?, hname] at hn

theorem At.made {w : World} {l : Layout} (place : w.At l)
    (root : w.globals.index < w.forest.environments.size) :
    w.current.index < w.forest.environments.size := by
  obtain ⟨S, ρ⟩ := l
  cases S with
  | nil =>
      cases ρ with
      | nil =>
          rw [show w.current = w.globals from place]
          exact root
      | cons => exact place.elim
  | cons scope S =>
      cases ρ with
      | nil => exact place.elim
      | cons π ρ =>
          obtain ⟨-, -, e, he, -⟩ := place
          exact w.forest.lt_size_of_enclosing? he

/-- After a declaration was executed, its name is declared completely. -/
theorem At.define {w : World} {l : Layout} (place : w.At l)
    (root : w.globals.index < w.forest.environments.size) (name : Token) (value : Value) :
    (w.define w.current name.lexeme value).At (l.introduce name) := by
  refine At.introduce (place.mono (w.le_define _ _ _)) name fun _ => ?_
  have made := w.forest.isSome_environment? (place.made root)
  rw [World.define, w.forest.own?_define_self w.current name.lexeme value made]
  rfl

end World

end Lox
