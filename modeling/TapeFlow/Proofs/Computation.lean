/-!
# Computations that keep their state when they fail

Building, lowering and executing are all computations on a state that can fail
and keep the state they failed in.  These lemmas take such a computation apart
at its first step, so that no proof has to unfold how steps are put together.
-/

namespace TapeFlow

variable {ε σ α β : Type}

theorem bind_of_ok {x : EStateM ε σ α} {f : α → EStateM ε σ β} {s s' : σ} {a : α}
    (h : x s = .ok a s') : (x >>= f) s = f a s' := by
  show EStateM.bind x f s = _
  simp only [EStateM.bind, h]

theorem bind_of_error {x : EStateM ε σ α} {f : α → EStateM ε σ β} {s s' : σ} {e : ε}
    (h : x s = .error e s') : (x >>= f) s = .error e s' := by
  show EStateM.bind x f s = _
  simp only [EStateM.bind, h]

theorem map_of_ok {x : EStateM ε σ α} (f : α → β) {s s' : σ} {a : α} (h : x s = .ok a s') :
    (f <$> x) s = .ok (f a) s' := by
  show EStateM.map f x s = _
  simp only [EStateM.map, h]

theorem map_of_error {x : EStateM ε σ α} (f : α → β) {s s' : σ} {e : ε} (h : x s = .error e s') :
    (f <$> x) s = .error e s' := by
  show EStateM.map f x s = _
  simp only [EStateM.map, h]

/-- What a computation in two steps can do: both succeed, or the first fails, or
the second. -/
theorem bind_cases (x : EStateM ε σ α) (f : α → EStateM ε σ β) (s : σ) :
    (∃ a s', x s = .ok a s' ∧ (x >>= f) s = f a s') ∨
      ∃ e s', x s = .error e s' ∧ (x >>= f) s = .error e s' := by
  cases h : x s with
  | ok a s' => exact .inl ⟨a, s', rfl, bind_of_ok h⟩
  | error e s' => exact .inr ⟨e, s', rfl, bind_of_error h⟩

/-- If a computation in two steps succeeds, so do its steps. -/
theorem exists_of_bind {x : EStateM ε σ α} {f : α → EStateM ε σ β} {s t : σ} {b : β}
    (h : (x >>= f) s = .ok b t) : ∃ a s', x s = .ok a s' ∧ f a s' = .ok b t := by
  rcases bind_cases x f s with ⟨a, s', hx, hrest⟩ | ⟨e, s', -, hrest⟩
  · exact ⟨a, s', hx, hrest.symm.trans h⟩
  · cases hrest.symm.trans h

end TapeFlow
