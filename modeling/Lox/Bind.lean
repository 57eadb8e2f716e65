/-!
# One step after another

Scanning, parsing and running are written in `EStateM`: a step changes a state and yields a value,
or it fails.  Two steps in a row end as the second one does, or as the first one does when it fails.
-/

namespace Lox

variable {ε σ α β : Type} {x : EStateM ε σ α} {f : α → EStateM ε σ β} {s t u : σ} {a : α} {b : β}
  {e : ε}

theorem bind_of_ok (h : x s = .ok a t) : (x >>= f) s = f a t := by
  change EStateM.bind x f s = _
  rw [EStateM.bind, h]

theorem bind_of_error (h : x s = .error e t) : (x >>= f) s = .error e t := by
  change EStateM.bind x f s = _
  rw [EStateM.bind, h]

theorem bind_eq_ok_iff : (x >>= f) s = .ok b u ↔ ∃ a t, x s = .ok a t ∧ f a t = .ok b u := by
  constructor
  · intro h
    cases hx : x s with
    | ok a t =>
        rw [bind_of_ok hx] at h
        exact ⟨a, t, rfl, h⟩
    | error e t =>
        rw [bind_of_error hx] at h
        cases h
  · rintro ⟨a, t, first, second⟩
    rw [bind_of_ok first, second]

theorem bind_eq_error_iff :
    (x >>= f) s = .error e u ↔ x s = .error e u ∨ ∃ a t, x s = .ok a t ∧ f a t = .error e u := by
  constructor
  · intro h
    cases hx : x s with
    | ok a t =>
        rw [bind_of_ok hx] at h
        exact Or.inr ⟨a, t, rfl, h⟩
    | error e t =>
        rw [bind_of_error hx] at h
        cases h
        exact Or.inl rfl
  · rintro (halted | ⟨a, t, first, second⟩)
    · exact bind_of_error halted
    · rw [bind_of_ok first, second]

end Lox
