import Lox.Machine.OpenCells
import Mathlib.Data.List.TakeWhile

/-!
# Operations on open cells

What each operation on the open cells does to the entries and to the look-up of slots. Adding an
entry keeps the entries sorted. While they are sorted, no slot has two of them: the look-up tells
all there is to know about them, and the entries at or above a slot stand behind all others.

## Main results

* `insertEntry_sorted` — the order is kept.
* `find?_eq_some_iff` — the look-up and the entries.
* `insert_of_found`, `insert_perm`, `find?_insert_self`, `find?_insert_of_ne` — adding a cell.
* `splitFrom_fst`, `splitFrom_snd`, `find?_splitFrom` — taking cells out.
-/

namespace Lox.OpenCells

variable {cells : OpenCells} {entries : List (Nat × Handle)} {slot other : Nat} {cell : Handle}

/-! ### Adding an entry -/

/-- A slot without a cell gets its entry. -/
theorem insertEntry_perm (cell : Handle) (absent : ∀ e ∈ entries, e.1 ≠ slot) :
    (insertEntry slot cell entries).Perm ((slot, cell) :: entries) := by
  induction entries with
  | nil => exact .refl _
  | cons e entries ih =>
      unfold insertEntry
      rw [if_neg (absent e (List.mem_cons_self ..))]
      split
      · exact ((ih fun e he => absent e (List.mem_cons_of_mem _ he)).cons e).trans (.swap ..)
      · exact .refl _

/-- Adding an entry adds no other. -/
theorem mem_insertEntry {e : Nat × Handle} (mem : e ∈ insertEntry slot cell entries) :
    e ∈ entries ∨ e = (slot, cell) := by
  induction entries with
  | nil => exact .inr (List.mem_singleton.mp mem)
  | cons first entries ih =>
      unfold insertEntry at mem
      split at mem
      · rcases List.mem_cons.mp mem with rfl | hmem
        · exact .inl (List.mem_cons_self ..)
        · exact (ih hmem).imp_left (List.mem_cons_of_mem _)
      · split at mem
        · exact .inl mem
        · exact (List.mem_cons.mp mem).symm

/-- Adding an entry keeps the open cells sorted. -/
theorem insertEntry_sorted (cell : Handle) (sorted : entries.Pairwise fun e e' => e.1 < e'.1) :
    (insertEntry slot cell entries).Pairwise fun e e' => e.1 < e'.1 := by
  induction entries with
  | nil => exact List.pairwise_singleton _ _
  | cons first entries ih =>
      obtain ⟨hfirst, hrest⟩ := List.pairwise_cons.mp sorted
      unfold insertEntry
      split
      · rename_i hlt
        refine List.pairwise_cons.mpr ⟨fun e he => ?_, ih hrest⟩
        rcases mem_insertEntry he with he | rfl
        · exact hfirst e he
        · exact hlt
      · split
        · exact sorted
        · rename_i hge hne
          have hslot : slot < first.1 := by omega
          refine List.pairwise_cons.mpr ⟨fun e he => ?_, sorted⟩
          rcases List.mem_cons.mp he with rfl | he
          · exact hslot
          · exact Nat.lt_trans hslot (hfirst e he)

/-- A slot that has an entry keeps it. -/
theorem insertEntry_of_mem (sorted : entries.Pairwise fun e e' => e.1 < e'.1) {held : Handle}
    (mem : (slot, held) ∈ entries) : insertEntry slot cell entries = entries := by
  induction entries with
  | nil => cases mem
  | cons first entries ih =>
      obtain ⟨hfirst, hrest⟩ := List.pairwise_cons.mp sorted
      unfold insertEntry
      rcases List.mem_cons.mp mem with rfl | hmem
      · rw [if_neg (Nat.lt_irrefl _), if_pos rfl]
      · rw [if_pos (hfirst _ hmem), ih hrest hmem]

/-! ### Looking a slot up -/

/-- The cell that is found for a slot is an entry. -/
theorem mem_of_find? (found : cells.find? slot = some cell) : (slot, cell) ∈ cells.entries := by
  obtain ⟨e, he, rfl⟩ := Option.map_eq_some_iff.mp found
  have hslot : e.1 = slot := by simpa using List.find?_some he
  exact hslot ▸ List.mem_of_find?_eq_some he

/-- Where no cell is found, no entry has the slot. -/
theorem absent_of_find? (none : cells.find? slot = none) : ∀ e ∈ cells.entries, e.1 ≠ slot := by
  simpa [OpenCells.find?] using none

/-- While the entries are sorted, the look-up of a slot finds its entry. -/
theorem find?_eq_some_iff (sorted : cells.entries.Pairwise fun e e' => e.1 < e'.1) :
    cells.find? slot = some cell ↔ (slot, cell) ∈ cells.entries := by
  refine ⟨mem_of_find?, fun hmem => ?_⟩
  unfold OpenCells.find?
  generalize cells.entries = entries at sorted hmem ⊢
  induction entries with
  | nil => cases hmem
  | cons first entries ih =>
      obtain ⟨hfirst, hrest⟩ := List.pairwise_cons.mp sorted
      rcases List.mem_cons.mp hmem with rfl | hmem
      · rw [List.find?_cons_of_pos (by simp)]
        rfl
      · have hlt := hfirst _ hmem
        rw [List.find?_cons_of_neg (by simp only [decide_eq_true_eq]; omega)]
        exact ih hrest hmem

/-- Nothing is found for a slot that has no entry. -/
theorem find?_eq_none_iff : cells.find? slot = none ↔ ∀ e ∈ cells.entries, e.1 ≠ slot :=
  ⟨absent_of_find?, fun absent => by simpa [OpenCells.find?] using absent⟩

/-! ### Adding a cell -/

/-- A slot that has a cell keeps it, and nothing changes. -/
theorem insert_of_found (sorted : cells.entries.Pairwise fun e e' => e.1 < e'.1) {held : Handle}
    (found : cells.find? slot = some held) : cells.insert slot cell = cells := by
  rw [OpenCells.insert, insertEntry_of_mem sorted (mem_of_find? found)]

/-- The entries stay sorted when a cell is added. -/
theorem insert_sorted (sorted : cells.entries.Pairwise fun e e' => e.1 < e'.1) :
    (cells.insert slot cell).entries.Pairwise fun e e' => e.1 < e'.1 :=
  insertEntry_sorted cell sorted

/-- A slot that has no cell gets the new one. -/
theorem insert_perm (absent : cells.find? slot = none) :
    (cells.insert slot cell).entries.Perm ((slot, cell) :: cells.entries) :=
  insertEntry_perm cell (absent_of_find? absent)

/-- The new cell is found, if its slot had none. -/
theorem find?_insert_self (sorted : cells.entries.Pairwise fun e e' => e.1 < e'.1)
    (absent : cells.find? slot = none) : (cells.insert slot cell).find? slot = some cell := by
  rw [find?_eq_some_iff (insert_sorted sorted), (insert_perm absent).mem_iff]
  exact List.mem_cons_self ..

/-- Adding a cell changes nothing for other slots. -/
theorem find?_insert_of_ne (sorted : cells.entries.Pairwise fun e e' => e.1 < e'.1)
    (ne : other ≠ slot) : (cells.insert slot cell).find? other = cells.find? other := by
  cases hfind : cells.find? slot with
  | some held => rw [insert_of_found sorted hfind]
  | none =>
      refine Option.ext fun held => ?_
      rw [find?_eq_some_iff (insert_sorted sorted), (insert_perm hfind).mem_iff,
        find?_eq_some_iff sorted, List.mem_cons, Prod.mk.injEq]
      simp [ne]

/-! ### Taking cells out -/

/-- From the first open cell at or above a slot on, all are. -/
theorem le_of_mem_dropWhile (sorted : entries.Pairwise fun e e' => e.1 < e'.1) {e : Nat × Handle}
    (mem : e ∈ entries.dropWhile fun e => decide (e.1 < slot)) : slot ≤ e.1 := by
  induction entries with
  | nil => cases mem
  | cons first entries ih =>
      obtain ⟨hfirst, hrest⟩ := List.pairwise_cons.mp sorted
      rw [List.dropWhile_cons] at mem
      split at mem
      · exact ih hrest mem
      · rename_i hge
        rw [decide_eq_true_eq, Nat.not_lt] at hge
        rcases List.mem_cons.mp mem with rfl | hmem
        · exact hge
        · exact Nat.le_trans hge (Nat.le_of_lt (hfirst e hmem))

/-- Every entry is taken out or stays. -/
theorem splitFrom_append (cells : OpenCells) (slot : Nat) :
    (cells.splitFrom slot).2.entries ++ (cells.splitFrom slot).1 = cells.entries :=
  List.takeWhile_append_dropWhile

/-- What stays is below the slot. -/
theorem lt_of_mem_splitFrom_snd {e : Nat × Handle}
    (mem : e ∈ (cells.splitFrom slot).2.entries) : e.1 < slot := by
  simpa using List.mem_takeWhile_imp (p := fun e : Nat × Handle => decide (e.1 < slot)) mem

/-- What is taken out is at the slot or above it. -/
theorem le_of_mem_splitFrom_fst (sorted : cells.entries.Pairwise fun e e' => e.1 < e'.1)
    {e : Nat × Handle} (mem : e ∈ (cells.splitFrom slot).1) : slot ≤ e.1 :=
  le_of_mem_dropWhile sorted mem

/-- Entries below a slot and entries at or above it are told apart. -/
theorem filter_parts {lower upper : List (Nat × Handle)} (below : ∀ e ∈ lower, e.1 < slot)
    (above : ∀ e ∈ upper, slot ≤ e.1) :
    (lower ++ upper).filter (·.1 < slot) = lower ∧
      (lower ++ upper).filter (slot ≤ ·.1) = upper := by
  have hlower : lower.filter (slot ≤ ·.1) = [] :=
    List.filter_eq_nil_iff.mpr fun e he => by simpa using below e he
  have hupper : upper.filter (·.1 < slot) = [] :=
    List.filter_eq_nil_iff.mpr fun e he => by simpa using above e he
  rw [List.filter_append, List.filter_append, hlower, hupper,
    List.filter_eq_self.mpr fun e he => decide_eq_true (below e he),
    List.filter_eq_self.mpr fun e he => decide_eq_true (above e he)]
  simp

/-- The entries at or above a slot are taken out, in their order. -/
theorem splitFrom_fst (sorted : cells.entries.Pairwise fun e e' => e.1 < e'.1) (slot : Nat) :
    (cells.splitFrom slot).1 = cells.entries.filter (slot ≤ ·.1) := by
  rw [← splitFrom_append cells slot]
  exact (filter_parts (fun _ => lt_of_mem_splitFrom_snd)
    fun _ => le_of_mem_splitFrom_fst sorted).2.symm

/-- The entries below a slot stay. -/
theorem splitFrom_snd (sorted : cells.entries.Pairwise fun e e' => e.1 < e'.1) (slot : Nat) :
    (cells.splitFrom slot).2.entries = cells.entries.filter (·.1 < slot) := by
  rw [← splitFrom_append cells slot]
  exact (filter_parts (fun _ => lt_of_mem_splitFrom_snd)
    fun _ => le_of_mem_splitFrom_fst sorted).1.symm

/-- What stays is sorted. -/
theorem splitFrom_sorted (sorted : cells.entries.Pairwise fun e e' => e.1 < e'.1) :
    (cells.splitFrom slot).2.entries.Pairwise fun e e' => e.1 < e'.1 :=
  sorted.sublist (List.takeWhile_sublist _)

/-- The look-up of the slots that stay, and of those that do not. -/
theorem find?_splitFrom (sorted : cells.entries.Pairwise fun e e' => e.1 < e'.1)
    (slot other : Nat) :
    (cells.splitFrom slot).2.find? other = if other < slot then cells.find? other else none := by
  refine Option.ext fun held => ?_
  rw [find?_eq_some_iff (splitFrom_sorted sorted), splitFrom_snd sorted, List.mem_filter,
    decide_eq_true_eq]
  split
  · rename_i hlt
    rw [find?_eq_some_iff sorted]
    exact and_iff_left hlt
  · rename_i hge
    simp [hge]

end Lox.OpenCells
