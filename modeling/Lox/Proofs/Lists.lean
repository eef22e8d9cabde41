import Mathlib.Data.List.Forall2

/-!
# Lists that grow, and lists related one by one
-/

namespace Lox

variable {α β : Type}

/-- Only the pairs that occur in two lists matter. -/
theorem forall₂_mono {R S : α → β → Prop} {xs : List α} {ys : List β}
    (all : List.Forall₂ R xs ys) (imp : ∀ x ∈ xs, ∀ y ∈ ys, R x y → S x y) :
    List.Forall₂ S xs ys := by
  induction all with
  | nil => exact .nil
  | cons hxy _ ih =>
      refine .cons (imp _ (by simp) _ (by simp) hxy) (ih fun x hx y hy => ?_)
      exact imp x (List.mem_cons_of_mem _ hx) y (List.mem_cons_of_mem _ hy)

/-- Two lists that are related one by one to a third are related one by one. -/
theorem forall₂_trans {R : α → α → Prop} (trans : ∀ a b c, R a b → R b c → R a c)
    {xs ys zs : List α} (first : List.Forall₂ R xs ys) (second : List.Forall₂ R ys zs) :
    List.Forall₂ R xs zs := by
  induction first generalizing zs with
  | nil => exact second
  | cons hxy _ ih =>
      obtain ⟨z, zs, hyz, hzs, rfl⟩ := List.forall₂_cons_left_iff.mp second
      exact .cons (trans _ _ _ hxy hyz) (ih hzs)

/-- A list that is related one by one to an appended one is appended, too. -/
theorem forall₂_append {R : α → β → Prop} {xs ys : List α} {zs : List β}
    (all : List.Forall₂ R (xs ++ ys) zs) :
    ∃ us vs, zs = us ++ vs ∧ List.Forall₂ R xs us ∧ List.Forall₂ R ys vs := by
  refine ⟨zs.take xs.length, zs.drop xs.length, (List.take_append_drop _ _).symm, ?_, ?_⟩
  · simpa using List.forall₂_take xs.length all
  · simpa using List.forall₂_drop xs.length all

/-- In two lists that are related one by one, every entry of the second is related to one of
the first. -/
theorem exists_of_forall₂ {R : α → β → Prop} {xs : List α} {ys : List β} {y : β}
    (all : List.Forall₂ R xs ys) (mem : y ∈ ys) : ∃ x ∈ xs, R x y := by
  induction all with
  | nil => cases mem
  | cons hxy _ ih =>
      rcases List.mem_cons.mp mem with rfl | hmem
      · exact ⟨_, by simp, hxy⟩
      · obtain ⟨x, hx, hr⟩ := ih hmem
        exact ⟨x, by simp [hx], hr⟩

/-- In two lists that are related one by one, the entries at each index are related. -/
theorem forall₂_getElem? {R : α → β → Prop} {xs : List α} {ys : List β}
    (all : List.Forall₂ R xs ys) (i : Nat) : Option.Rel R xs[i]? ys[i]? := by
  induction all generalizing i with
  | nil => exact .none
  | cons hxy _ ih =>
      cases i with
      | zero => exact .some hxy
      | succ i => exact ih i

/-- What is taken from lists that are related one by one is related. -/
theorem forall₂_takeWhile {R : α → β → Prop} {xs : List α} {ys : List β} {p : α → Bool}
    {q : β → Bool} (all : List.Forall₂ R xs ys) (same : ∀ x y, R x y → q y = p x) :
    List.Forall₂ R (xs.takeWhile p) (ys.takeWhile q) := by
  induction all with
  | nil => exact .nil
  | cons hxy _ ih =>
      rw [List.takeWhile_cons, List.takeWhile_cons, same _ _ hxy]
      split
      · exact .cons hxy ih
      · exact .nil

/-- What is left of lists that are related one by one is related. -/
theorem forall₂_dropWhile {R : α → β → Prop} {xs : List α} {ys : List β} {p : α → Bool}
    {q : β → Bool} (all : List.Forall₂ R xs ys) (same : ∀ x y, R x y → q y = p x) :
    List.Forall₂ R (xs.dropWhile p) (ys.dropWhile q) := by
  induction all with
  | nil => exact .nil
  | cons hxy hrest ih =>
      rw [List.dropWhile_cons, List.dropWhile_cons, same _ _ hxy]
      split
      · exact ih
      · exact .cons hxy hrest

/-- Changing the entries at the same place. -/
theorem forall₂_set {R : α → β → Prop} {xs : List α} {ys : List β} {x : α} {y : β}
    (all : List.Forall₂ R xs ys) (i : Nat) (related : R x y) :
    List.Forall₂ R (xs.set i x) (ys.set i y) := by
  induction all generalizing i with
  | nil => exact .nil
  | cons hxy hrest ih =>
      cases i with
      | zero => exact .cons related hrest
      | succ i => exact .cons hxy (ih i)

/-- An entry of a list stays at its place when the list grows. -/
theorem getElem?_mono {xs ys : List α} {i : Nat} {x : α} (grows : xs <+: ys)
    (found : xs[i]? = some x) : ys[i]? = some x := by
  obtain ⟨more, rfl⟩ := grows
  obtain ⟨hi, rfl⟩ := List.getElem?_eq_some_iff.mp found
  rw [List.getElem?_append_left hi, List.getElem?_eq_getElem hi]

end Lox
