import Lox.Proofs.Lists
import Lox.Proofs.Reference.Machine
import Lox.Proofs.Sequencing

/-!
# The stack of the reference machine as a list of data

As long as no captured variable is read or assigned, it does not matter which locations lie on the
stack, only what they hold. The locations on the stack are different from each other, so assigning
one of them changes the datum of one slot.

## Main definitions

* `Reference.Lays` — the data that the stack slots hold.

## Main results

* `Lays.push`, `Lays.pop`, `Lays.take`, `Lays.set` — how the data change.
* `pop_apply`, `peek_apply`, `dataFrom_eq` — what is read of them.
-/

namespace Lox.Reference

variable {r : Reference} {store : Array Datum} {stack : Array Nat}
  {ds es : List Datum} {d e : Datum}

/-- The data in the slots of a stack, from the bottom to the top. -/
structure Lays (store : Array Datum) (stack : Array Nat) (ds : List Datum) : Prop where
  data : List.Forall₂ (fun ℓ d => store[ℓ]? = some d) stack.toList ds
  nodup : stack.toList.Nodup

namespace Lays

/-- There is a slot for each datum. -/
theorem size (lays : Lays store stack ds) : stack.size = ds.length := lays.data.length_eq

/-- The locations of slots. -/
theorem location (lays : Lays store stack ds) {i : Nat} (found : ds[i]? = some d) :
    ∃ ℓ : Nat, stack[i]? = some ℓ ∧ store[ℓ]? = some d := by
  have hrel := forall₂_getElem? lays.data i
  rw [found, Array.getElem?_toList] at hrel
  generalize stack[i]? = o at hrel
  cases hrel with
  | some h => exact ⟨_, rfl, h⟩

/-- An empty stack. -/
theorem nil (store : Array Datum) : Lays store #[] [] := ⟨.nil, List.nodup_nil⟩

/-- A datum in a location of its own on top. -/
theorem push (lays : Lays store stack ds) (d : Datum) :
    Lays (store.push d) (stack.push store.size) (ds ++ [d]) := by
  have hold : ∀ {ℓ e}, store[ℓ]? = some e → (store.push d)[ℓ]? = some e ∧ ℓ ≠ store.size :=
    fun {ℓ e} he => by
      have hlt := (Array.getElem?_eq_some_iff.mp he).1
      rw [Array.getElem?_push, if_neg (by omega)]
      exact ⟨he, by omega⟩
  constructor
  · rw [Array.toList_push]
    exact List.rel_append (lays.data.imp fun ℓ e he => (hold he).1) (.cons (by simp) .nil)
  · rw [Array.toList_push]
    refine lays.nodup.append (List.nodup_singleton _) fun ℓ hℓ hmem => ?_
    obtain rfl := List.mem_singleton.mp hmem
    obtain ⟨e, -, he⟩ := exists_of_forall₂ lays.data.flip hℓ
    exact (hold he).2 rfl

/-- The lower part of the stack. -/
theorem take (lays : Lays store stack ds) (n : Nat) : Lays store (stack.shrink n) (ds.take n) := by
  constructor
  · rw [Array.toList_shrink]
    exact List.forall₂_take n lays.data
  · rw [Array.toList_shrink]
    exact lays.nodup.sublist (List.take_sublist n _)

/-- The part of the stack under some data. -/
theorem under (lays : Lays store stack (ds ++ es)) : Lays store (stack.shrink ds.length) ds := by
  simpa using lays.take ds.length

/-- The stack without the datum on top. -/
theorem pop (lays : Lays store stack (ds ++ [d])) : Lays store stack.pop ds := by
  constructor
  · rw [Array.toList_pop]
    have := List.forall₂_take ds.length lays.data
    rwa [List.take_left, show ds.length = stack.toList.length - 1 by simp [lays.size],
      ← List.dropLast_eq_take] at this
  · rw [Array.toList_pop]
    exact lays.nodup.sublist (List.dropLast_sublist _)

/-- Assigning the location of a slot changes the datum of this slot only. -/
theorem set (lays : Lays store stack ds) {i ℓ : Nat} (slot : stack[i]? = some ℓ) (d : Datum) :
    Lays (store.setIfInBounds ℓ d) stack (ds.set i d) := by
  refine ⟨List.forall₂_iff_get.mpr ⟨by simpa using lays.data.length_eq, fun j hj hj' => ?_⟩,
    lays.nodup⟩
  rw [List.length_set] at hj'
  have hrel := (List.forall₂_iff_get.mp lays.data).2 j hj hj'
  simp only [List.get_eq_getElem, List.getElem_set] at hrel ⊢
  have hℓ : stack[j]? = some stack.toList[j] := by
    rw [← Array.getElem?_toList, List.getElem?_eq_getElem hj]
  split
  · rename_i heq
    subst heq
    obtain rfl := Option.some.inj (slot.symm.trans hℓ)
    exact Array.getElem?_setIfInBounds_self_of_lt (Array.getElem?_eq_some_iff.mp hrel).1
  · rename_i hne
    rw [Array.getElem?_setIfInBounds_ne, hrel]
    intro heq
    rw [← Array.getElem?_toList] at slot hℓ
    obtain ⟨hi, hslot⟩ := List.getElem?_eq_some_iff.mp slot
    exact hne ((List.Nodup.getElem_inj_iff lays.nodup).mp (hslot.trans heq))

end Lays

/-! ### Actions -/

/-- What a slot holds. -/
theorem slot?_of_lays (lays : Lays r.store r.stack ds) {i : Nat} (found : ds[i]? = some d) :
    r.slot? i = some d := by
  obtain ⟨ℓ, hℓ, hd⟩ := lays.location found
  rw [slot?, hℓ]
  exact hd

/-- Pushing a datum where there is room. -/
theorem push_apply (room : r.stack.size < r.stackMax) (d : Datum) :
    push d r = .ok () { r with store := r.store.push d, stack := r.stack.push r.store.size } := by
  rw [push, if_neg (Nat.not_le.mpr room)]

/-- Popping the datum on top. -/
theorem pop_apply (lays : Lays r.store r.stack (ds ++ [d])) :
    pop r = .ok d { r with stack := r.stack.pop } := by
  have hslot : r.slot? (r.stack.size - 1) = some d := slot?_of_lays lays (by simp [lays.size])
  rw [pop, bind_of_ok (get_apply r), bind_of_ok (modify_apply _ _), hslot]
  rfl

/-- Looking at the datum under others. -/
theorem peek_apply (lays : Lays r.store r.stack (ds ++ d :: es)) : peek es.length r = .ok d r := by
  have hsize : r.stack.size = ds.length + (es.length + 1) := by rw [lays.size]; simp
  have hslot : r.slot? (r.stack.size - 1 - es.length) = some d := by
    refine slot?_of_lays lays ?_
    rw [hsize, show ds.length + (es.length + 1) - 1 - es.length = ds.length by omega]
    simp
  rw [peek, bind_of_ok (get_apply r), if_pos (by omega), hslot]
  rfl

/-- The data above a slot. -/
theorem dataFrom_eq (lays : Lays r.store r.stack (ds ++ es)) : r.dataFrom ds.length = es := by
  have hdrop := List.forall₂_drop ds.length lays.data
  rw [List.drop_left] at hdrop
  unfold dataFrom
  generalize r.stack.toList.drop ds.length = ℓs at hdrop
  clear lays
  induction hdrop with
  | nil => rfl
  | cons h _ ih => rw [List.map_cons, ih, Array.getD_eq_getD_getElem?, h, Option.getD_some]

end Lox.Reference
