/-!
# Sequenced actions

Heap operations, compiler steps, machine actions and session steps are all functions from a
state to an answer or an error, with the state after it. The equations of this module open a
sequence of two such actions at the result of the first.
-/

namespace Lox

variable {ε σ α β : Type} {x : EStateM ε σ α} {f : α → EStateM ε σ β} {s s' : σ}

/-- A sequence goes on with the answer of its first action. -/
theorem bind_of_ok {a : α} (run : x s = .ok a s') : (x >>= f) s = f a s' := by
  simp [bind, EStateM.bind, run]

/-- A sequence ends with the error of its first action. -/
theorem bind_of_error {e : ε} (run : x s = .error e s') : (x >>= f) s = .error e s' := by
  simp [bind, EStateM.bind, run]

/-- A sequence answers when both its actions do. -/
theorem bind_eq_ok_iff {b : β} :
    (x >>= f) s = .ok b s' ↔ ∃ a mid, x s = .ok a mid ∧ f a mid = .ok b s' := by
  cases hx : x s with
  | ok a mid =>
      rw [bind_of_ok hx]
      constructor
      · exact fun h => ⟨a, mid, rfl, h⟩
      · rintro ⟨_, _, ⟨⟩, h⟩
        exact h
  | error e mid =>
      rw [bind_of_error hx]
      simp

/-- Doing something for each entry of a list starts with the first entry. -/
theorem forM_cons_of_ok {γ : Type} {c : γ} {cs : List γ} {act : γ → EStateM ε σ PUnit} {u : PUnit}
    (run : act c s = .ok u s') : (c :: cs).forM act s = cs.forM act s' :=
  bind_of_ok run

/-- An action that only answers. -/
@[simp]
theorem pure_apply (a : α) (s : σ) : (pure a : EStateM ε σ α) s = .ok a s := rfl

/-- Reading the state. -/
@[simp]
theorem get_apply (s : σ) : (get : EStateM ε σ σ) s = .ok s s := rfl

/-- Changing the state. -/
@[simp]
theorem modify_apply (change : σ → σ) (s : σ) :
    (modify change : EStateM ε σ Unit) s = .ok () (change s) := rfl

/-- Putting another state in place. -/
@[simp]
theorem set_apply (s s' : σ) : (set s' : EStateM ε σ PUnit) s = .ok () s' := rfl

/-- Failing. -/
@[simp]
theorem throw_apply (e : ε) (s : σ) : (throw e : EStateM ε σ α) s = .error e s := rfl

/-- A result with another state. -/
def onState (change : σ → σ) : EStateM.Result ε σ α → EStateM.Result ε σ α
  | .ok a s => .ok a (change s)
  | .error e s => .error e (change s)

/-- A sequence may be started in another state when its parts may. -/
theorem bind_onState {change : σ → σ} (first : x (change s) = onState change (x s))
    (rest : ∀ a s', f a (change s') = onState change (f a s')) :
    (x >>= f) (change s) = onState change ((x >>= f) s) := by
  simp only [bind, EStateM.bind, first]
  cases x s with
  | ok a s' => exact rest a s'
  | error e s' => rfl

end Lox
