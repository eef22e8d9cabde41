import Lox.Proofs.Sequencing

/-!
# Results that agree

Two runs of an action, from two states that differ in nothing that the action looks at, end
in the same way. What it means for two answers and two states to be the same depends on the
action, so it is given as a relation, and so is what it means for two failures.

One of the two runs may be *lost*: it fails for a reason that the other one need not know.
Nothing is said of the other run then.

## Main definitions

* `Agree` — two results that agree.

## Main results

* `Agree.bind` — sequences agree when their parts do.
-/

namespace Lox

variable {ε σ α β γ δ : Type} {ok ok' : α → σ → β → σ → Prop} {fail fail' : ε → σ → ε → σ → Prop}
  {lost : ε → σ → Prop}

/-- Two results **agree**: both are answers, or both are failures, or one run is lost. -/
inductive Agree (ok : α → σ → β → σ → Prop) (fail : ε → σ → ε → σ → Prop) (lost : ε → σ → Prop) :
    EStateM.Result ε σ α → EStateM.Result ε σ β → Prop
  | ok {a : α} {s : σ} {b : β} {t : σ} : ok a s b t → Agree ok fail lost (.ok a s) (.ok b t)
  | fail {e : ε} {s : σ} {f : ε} {t : σ} : fail e s f t →
      Agree ok fail lost (.error e s) (.error f t)
  | first {e : ε} {s : σ} {other : EStateM.Result ε σ β} : lost e s →
      Agree ok fail lost (.error e s) other
  | second {f : ε} {t : σ} {other : EStateM.Result ε σ α} : lost f t →
      Agree ok fail lost other (.error f t)

namespace Agree

/-- Results that agree in one sense agree in every weaker sense. -/
theorem mono {x : EStateM.Result ε σ α} {y : EStateM.Result ε σ β} (agree : Agree ok fail lost x y)
    (answers : ∀ a s b t, ok a s b t → ok' a s b t)
    (failures : ∀ e s f t, fail e s f t → fail' e s f t) : Agree ok' fail' lost x y := by
  cases agree with
  | ok h => exact .ok (answers _ _ _ _ h)
  | fail h => exact .fail (failures _ _ _ _ h)
  | first h => exact .first h
  | second h => exact .second h

/-- Only the sense in which answers agree is weakened. -/
theorem imp {x : EStateM.Result ε σ α} {y : EStateM.Result ε σ β} (agree : Agree ok fail lost x y)
    (answers : ∀ a s b t, ok a s b t → ok' a s b t) : Agree ok' fail lost x y :=
  agree.mono answers fun _ _ _ _ => id

/-- Two sequences agree when their first actions do, and what follows agrees whenever the
answers and the states in between do. -/
theorem bind {x : EStateM ε σ α} {y : EStateM ε σ β} {f : α → EStateM ε σ γ}
    {g : β → EStateM ε σ δ} {after : γ → σ → δ → σ → Prop} {s t : σ}
    (start : Agree ok fail lost (x s) (y t))
    (rest : ∀ a s' b t', ok a s' b t' → Agree after fail lost (f a s') (g b t')) :
    Agree after fail lost ((x >>= f) s) ((y >>= g) t) := by
  simp only [Bind.bind, EStateM.bind]
  revert start
  generalize x s = left
  generalize y t = right
  intro start
  cases start with
  | ok h => exact rest _ _ _ _ h
  | fail h => exact .fail h
  | first h => exact .first h
  | second h => exact .second h

/-- A result that agrees with itself. -/
theorem diagonal {ok : α → σ → α → σ → Prop} {x : EStateM.Result ε σ α}
    (agree : Agree ok fail lost x x) :
    (∃ a s, x = .ok a s ∧ ok a s a s) ∨ ∃ e s, x = .error e s ∧ (fail e s e s ∨ lost e s) := by
  cases x with
  | ok a s =>
      cases agree with
      | ok h => exact .inl ⟨a, s, rfl, h⟩
  | error e s =>
      refine .inr ⟨e, s, rfl, ?_⟩
      cases agree with
      | fail h => exact .inl h
      | first h => exact .inr h
      | second h => exact .inr h

end Agree

end Lox
