import Mathlib.Logic.Relation
import Lox.Proofs.Reference.Machine
import Lox.Proofs.Sequencing

/-!
# Runs of the reference machine

A run with a budget is a row of steps. When it has ended, a larger budget makes no difference.

## Main definitions

* `Reference.Comes` — a machine that comes to another one in some steps.

## Main results

* `Comes.run` — the steps in between may be counted.
* `run_add`, `run_unique`, `runScript_unique` — a run that has ended has one end.
-/

namespace Lox.Reference

variable {r s t : Reference} {budget : Nat}

/-- A run that goes on after a step. -/
theorem run_of_running (first : step r = .ok .running s) : run (budget + 1) r = run budget s := by
  conv_lhs => unfold run
  rw [bind_of_ok first]

/-- A run that ends with a step. -/
theorem run_of_halted (first : step r = .ok .halted s) : run (budget + 1) r = .ok .halted s := by
  unfold run
  rw [bind_of_ok first]
  rfl

/-- A run that fails with a step. -/
theorem run_of_error {e : Interruption} (first : step r = .error e s) :
    run (budget + 1) r = .error e s := by
  unfold run
  rw [bind_of_error first]

/-- A run that has ended ends in the same way with a larger budget. -/
theorem run_add {result : EStateM.Result Interruption Reference Status} (more : Nat)
    (runs : run budget r = result) (ended : ∀ s, result ≠ .ok .running s) :
    run (budget + more) r = result := by
  induction budget generalizing r with
  | zero => exact absurd runs.symm (ended r)
  | succ budget ih =>
      rw [Nat.succ_add]
      cases hstep : step r with
      | error e s =>
          rw [← runs, run_of_error hstep, run_of_error hstep]
      | ok status s =>
          cases status with
          | halted => rw [← runs, run_of_halted hstep, run_of_halted hstep]
          | running =>
              exact (run_of_running hstep).trans (ih ((run_of_running hstep).symm.trans runs))

/-- A run that has ended has no other end with another budget. -/
theorem run_unique {x y : Nat} (ended : ∀ s, run x r ≠ .ok .running s)
    (ended' : x ≤ y ∨ ∀ s, run y r ≠ .ok .running s) : run y r = run x r := by
  rcases Nat.le_total x y with hle | hle
  · obtain ⟨more, rfl⟩ := Nat.exists_eq_add_of_le hle
    exact run_add more rfl ended
  · rcases ended' with hle' | hended
    · rw [Nat.le_antisymm hle hle']
    · obtain ⟨more, rfl⟩ := Nat.exists_eq_add_of_le hle
      exact (run_add more rfl hended).symm

/-- A script that has ended has no other end with another budget. -/
theorem runScript_unique {t : Template} {constants : List Constant} {x y : Nat}
    (ended : ∀ s, runScript x t constants r ≠ .ok .paused s)
    (ended' : x ≤ y ∨ ∀ s, runScript y t constants r ≠ .ok .paused s) :
    runScript y t constants r = runScript x t constants r := by
  cases hstart : start t constants r with
  | error e s =>
      unfold runScript
      simp only [bind_of_error hstart]
  | ok u s =>
      have hrunning : ∀ {budget : Nat}, (∀ u, runScript budget t constants r ≠ .ok .paused u) →
          ∀ u, run budget s ≠ .ok .running u := by
        intro budget h u hu
        refine h u ?_
        unfold runScript
        simp only [bind_of_ok hstart, hu]
      unfold runScript
      simp only [bind_of_ok hstart, run_unique (hrunning ended) (ended'.imp_right hrunning)]

/-! ### Steps in a row -/

/-- The machine comes to another one in some steps. -/
def Comes : Reference → Reference → Prop := Relation.ReflTransGen fun r s => step r = .ok .running s

namespace Comes

theorem refl (r : Reference) : r.Comes r := Relation.ReflTransGen.refl

theorem single (first : step r = .ok .running s) : r.Comes s := Relation.ReflTransGen.single first

theorem trans (first : r.Comes s) (second : s.Comes t) : r.Comes t :=
  Relation.ReflTransGen.trans first second

/-- The steps in between are the first ones of a run. -/
theorem run (comes : r.Comes s) :
    ∃ count, ∀ budget, Reference.run (count + budget) r = Reference.run budget s := by
  induction comes using Relation.ReflTransGen.head_induction_on with
  | refl => exact ⟨0, fun budget => by rw [Nat.zero_add]⟩
  | head first _ ih =>
      obtain ⟨count, hcount⟩ := ih
      refine ⟨count + 1, fun budget => ?_⟩
      rw [Nat.add_right_comm, run_of_running first, hcount]

end Comes

end Lox.Reference
