import Lox.Proofs.Machine.OpenCells.Basic

/-!
# Open cells searched by halving

The entries are sorted, so a slot need not be looked for from the front: half of the entries that
are left can be ruled out at a time. The three operations are given here a second time over such a
search, which finds a slot, the place where a new entry belongs, and the place where the entries are
split. On sorted entries they do what the operations do that go from the front.

What a search finds is fixed by the order of the entries and not by the way it takes
(`Spot.Marks`); nothing else about it is used.

## Main definitions

* `Arranged` — entries in the order that a search needs.
* `narrow`, `search` — a search by halving.
* `Spot`, `Spot.Marks` — what a search finds.
* `Halving.find?`, `Halving.insert`, `Halving.splitFrom` — the operations.

## Main results

* `search_marks` — the search finds what it should.
* `Halving.find?_eq`, `Halving.insert_eq`, `Halving.splitFrom_eq` — the operations agree.
-/

namespace Lox.OpenCells

section Search

variable {α : Type} {order : α → Ordering} {entries : List α} {base size i j : Nat} {a b : α}

/-! ### A search by halving -/

/-- What a search finds. -/
inductive Spot where
  /-- An entry that was searched for. -/
  | found (index : Nat)
  /-- The place where such an entry belongs. -/
  | missing (index : Nat)

/-- Rules out half of the entries that are left, until there is one. The entries in question are
`size` many from `base` on. -/
def narrow (order : α → Ordering) (entries : List α) (base size : Nat) : Nat :=
  if size ≤ 1 then base
  else
    let middle := base + size / 2
    narrow order entries (if entries[middle]?.any (order · = .gt) then base else middle)
      (size - size / 2)
termination_by size
decreasing_by omega

/-- Searches by halving. The order tells for each entry whether what is searched for comes behind
it, is at it, or comes in front of it. -/
def search (order : α → Ordering) (entries : List α) : Spot :=
  let last := narrow order entries 0 entries.length
  match entries[last]?.map order with
  | none => .missing 0
  | some .lt => .missing (last + 1)
  | some .eq => .found last
  | some .gt => .missing last

/-- What a search has to find: an entry that is searched for or, if there is none, the place that
parts the entries in front of it from those behind it. -/
inductive Spot.Marks (order : α → Ordering) (entries : List α) : Spot → Prop
  | found {i : Nat} {a : α} : entries[i]? = some a → order a = .eq → Marks order entries (.found i)
  | missing {i : Nat} : i ≤ entries.length → (∀ a ∈ entries.take i, order a = .lt) →
      (∀ a ∈ entries.drop i, order a = .gt) → Marks order entries (.missing i)

/-- Entries that come in front of what is searched for stand first, and those that come behind it
stand last. -/
def Arranged (order : α → Ordering) (entries : List α) : Prop :=
  entries.Pairwise fun a b => (order b = .lt → order a = .lt) ∧ (order a = .gt → order b = .gt)

/-- In front of an entry that is not far enough, none is; behind one that is too far, all are. -/
theorem Arranged.getElem? (arranged : Arranged order entries) (le : i ≤ j)
    (ha : entries[i]? = some a) (hb : entries[j]? = some b) :
    (order b = .lt → order a = .lt) ∧ (order a = .gt → order b = .gt) := by
  rcases Nat.lt_or_eq_of_le le with hlt | rfl
  · obtain ⟨hi, rfl⟩ := List.getElem?_eq_some_iff.mp ha
    obtain ⟨hj, rfl⟩ := List.getElem?_eq_some_iff.mp hb
    exact List.pairwise_iff_getElem.mp arranged i j hi hj hlt
  · cases ha.symm.trans hb
    exact ⟨id, id⟩

/-- What is known while a search goes on: the entries behind those in question are too far, and the
first of those in question is not, unless the search has not moved on yet. -/
structure Brackets (order : α → Ordering) (entries : List α) (base size : Nat) : Prop where
  inside : base + size ≤ entries.length
  first : base ≠ 0 → ∀ a, entries[base]? = some a → order a ≠ .gt
  behind : ∀ i a, base + size ≤ i → entries[i]? = some a → order a = .gt

/-- One step of a search. -/
theorem Brackets.halve (arranged : Arranged order entries)
    (brackets : Brackets order entries base size) (large : ¬size ≤ 1) :
    Brackets order entries
      (if entries[base + size / 2]?.any (order · = .gt) then base else base + size / 2)
      (size - size / 2) := by
  obtain ⟨inside, first, behind⟩ := brackets
  have hmiddle : base + size / 2 < entries.length := by omega
  have hget := List.getElem?_eq_getElem hmiddle
  rw [hget, Option.any_some]
  split
  · -- An odd size leaves the middle entry in question, although it is too far.
    rename_i hgt
    rw [decide_eq_true_eq] at hgt
    exact ⟨by omega, first, fun i a hle ha => (arranged.getElem? (by omega) hget ha).2 hgt⟩
  · rename_i hnot
    rw [decide_eq_true_eq] at hnot
    refine ⟨by omega, fun _ a ha => ?_, fun i a hle ha => behind i a (by omega) ha⟩
    cases hget.symm.trans ha
    exact hnot

/-- A search ends at one entry. -/
theorem narrow_brackets (arranged : Arranged order entries)
    (brackets : Brackets order entries base size) (positive : 0 < size) :
    Brackets order entries (narrow order entries base size) 1 := by
  induction size using Nat.strongRecOn generalizing base with
  | ind size ih =>
      rw [narrow]
      split
      · rename_i hsmall
        obtain rfl : size = 1 := by omega
        exact brackets
      · rename_i hlarge
        exact ih _ (by omega) (brackets.halve arranged hlarge) (by omega)

/-- A search by halving finds what it has to find, if the entries are arranged for it. -/
theorem search_marks (arranged : Arranged order entries) :
    (search order entries).Marks order entries := by
  rw [search]
  rcases Nat.eq_zero_or_pos entries.length with hempty | hpositive
  · obtain rfl := List.length_eq_zero_iff.mp hempty
    exact .missing (Nat.le_refl _) (by simp) (by simp)
  have hall : Brackets order entries 0 entries.length := by
    refine ⟨by omega, fun hne => absurd rfl hne, fun i a hle ha => ?_⟩
    rw [List.getElem?_eq_none (by omega)] at ha
    cases ha
  obtain ⟨inside, first, behind⟩ := narrow_brackets arranged hall hpositive
  generalize narrow order entries 0 entries.length = last at inside first behind
  have hget := List.getElem?_eq_getElem (Nat.lt_of_succ_le inside)
  have hbehind : ∀ a ∈ entries.drop (last + 1), order a = .gt := fun a ha => by
    obtain ⟨k, hk, rfl⟩ := List.mem_drop_iff_getElem.mp ha
    exact behind (last + 1 + k) _ (by omega) (List.getElem?_eq_getElem (by omega))
  simp only [hget, Option.map_some]
  cases hat : order entries[last] with
  | lt =>
      refine .missing inside (fun a ha => ?_) hbehind
      obtain ⟨k, hk, rfl⟩ := List.mem_take_iff_getElem.mp ha
      exact (arranged.getElem? (by omega) (List.getElem?_eq_getElem (by omega)) hget).1 hat
  | eq => exact .found hget hat
  | gt =>
      -- The search has only ever moved on to entries that are not too far.
      have hzero : last = 0 := by
        by_contra hne
        exact first hne _ hget hat
      subst hzero
      refine .missing (Nat.zero_le _) (by simp) fun a ha => ?_
      obtain ⟨k, hk, rfl⟩ := List.mem_drop_iff_getElem.mp ha
      exact (arranged.getElem? (Nat.zero_le _) hget (List.getElem?_eq_getElem (by omega))).2 hat

end Search

variable {cells : OpenCells} {entries : List (Nat × Handle)} {slot : Nat} {cell : Handle}

/-! ### The operations over a search -/

namespace Halving

/-- Searches for a slot. -/
def place (cells : OpenCells) (slot : Nat) : Spot :=
  search (fun e => compare e.1 slot) cells.entries

/-- The open cell of a slot. -/
def find? (cells : OpenCells) (slot : Nat) : Option Handle :=
  match place cells slot with
  | .found i => cells.entries[i]?.map (·.2)
  | .missing _ => none

/-- Adds the cell of a slot; a slot that has a cell keeps it. -/
def insert (cells : OpenCells) (slot : Nat) (cell : Handle) : OpenCells :=
  match place cells slot with
  | .found _ => cells
  | .missing i => ⟨cells.entries.insertIdx i (slot, cell)⟩

/-- The side of a slot that an entry is on. The slot itself counts as above. -/
def side (slot : Nat) (e : Nat × Handle) : Ordering := if e.1 < slot then .lt else .gt

/-- How many entries are below a slot: a search for the place between them and the others, which
never finds an entry. -/
def partitionPoint (cells : OpenCells) (slot : Nat) : Nat :=
  match search (side slot) cells.entries with
  | .found i => i
  | .missing i => i

/-- The cells at or above a slot, lowest first, and the cells below it. -/
def splitFrom (cells : OpenCells) (slot : Nat) : List (Nat × Handle) × OpenCells :=
  let i := partitionPoint cells slot
  (cells.entries.drop i, ⟨cells.entries.take i⟩)

/-- What a search for a slot finds. -/
theorem place_marks (sorted : cells.entries.Pairwise fun e e' => e.1 < e'.1) (slot : Nat) :
    (place cells slot).Marks (fun e => compare e.1 slot) cells.entries := by
  refine search_marks (sorted.imp fun {e e'} hlt => ?_)
  simp only [Nat.compare_eq_lt, Nat.compare_eq_gt]
  omega

/-- The look-up of a slot. -/
theorem find?_eq (sorted : cells.entries.Pairwise fun e e' => e.1 < e'.1) (slot : Nat) :
    find? cells slot = cells.find? slot := by
  have hmarks := place_marks sorted slot
  rw [find?]
  generalize place cells slot = spot at hmarks
  cases hmarks with
  | @found i e hget heq =>
      obtain rfl : e.1 = slot := Nat.compare_eq_eq.mp heq
      simp only [hget, Option.map_some]
      exact ((find?_eq_some_iff sorted).mpr (List.mem_of_getElem? hget)).symm
  | @missing i _ hbelow habove =>
      refine (find?_eq_none_iff.mpr fun e he => ?_).symm
      rw [← List.take_append_drop i cells.entries, List.mem_append] at he
      rcases he with he | he
      · exact Nat.ne_of_lt (Nat.compare_eq_lt.mp (hbelow e he))
      · exact Nat.ne_of_gt (Nat.compare_eq_gt.mp (habove e he))

/-- An entry goes between those below it and those above it. -/
theorem insertIdx_eq_insertEntry {i : Nat} (le : i ≤ entries.length)
    (below : ∀ e ∈ entries.take i, e.1 < slot) (above : ∀ e ∈ entries.drop i, slot < e.1) :
    entries.insertIdx i (slot, cell) = insertEntry slot cell entries := by
  induction entries generalizing i with
  | nil =>
      obtain rfl : i = 0 := Nat.le_zero.mp le
      rfl
  | cons first entries ih =>
      cases i with
      | zero =>
          have habove := above first (List.mem_cons_self ..)
          rw [List.insertIdx_zero, insertEntry, if_neg (by omega), if_neg (by omega)]
      | succ i =>
          have hbelow := below first (List.mem_cons_self ..)
          rw [List.insertIdx_succ_cons, insertEntry, if_pos hbelow]
          exact congrArg (first :: ·) (ih (Nat.le_of_succ_le_succ le)
            (fun e he => below e (List.mem_cons_of_mem _ he)) above)

/-- Adding a cell. -/
theorem insert_eq (sorted : cells.entries.Pairwise fun e e' => e.1 < e'.1) (slot : Nat)
    (cell : Handle) : insert cells slot cell = cells.insert slot cell := by
  have hmarks := place_marks sorted slot
  rw [insert]
  generalize place cells slot = spot at hmarks
  cases hmarks with
  | @found i e hget heq =>
      obtain rfl : e.1 = slot := Nat.compare_eq_eq.mp heq
      exact (insert_of_found sorted
        ((find?_eq_some_iff sorted).mpr (List.mem_of_getElem? hget))).symm
  | missing hle hbelow habove =>
      exact congrArg OpenCells.mk (insertIdx_eq_insertEntry hle
        (fun e he => Nat.compare_eq_lt.mp (hbelow e he))
        fun e he => Nat.compare_eq_gt.mp (habove e he))

@[simp] theorem side_eq_lt {e : Nat × Handle} : side slot e = .lt ↔ e.1 < slot := by
  simp [side]

@[simp] theorem side_eq_gt {e : Nat × Handle} : side slot e = .gt ↔ slot ≤ e.1 := by
  simp [side]

/-- The point between the entries below a slot and the others. -/
theorem partitionPoint_parts (sorted : cells.entries.Pairwise fun e e' => e.1 < e'.1) (slot : Nat) :
    (∀ e ∈ cells.entries.take (partitionPoint cells slot), e.1 < slot) ∧
      ∀ e ∈ cells.entries.drop (partitionPoint cells slot), slot ≤ e.1 := by
  have hmarks : (search (side slot) cells.entries).Marks (side slot) cells.entries := by
    refine search_marks (sorted.imp fun {e e'} hlt => ?_)
    simp only [side_eq_lt, side_eq_gt]
    omega
  rw [partitionPoint]
  generalize search (side slot) cells.entries = spot at hmarks
  cases hmarks with
  | @found i e _ heq =>
      rw [side] at heq
      split at heq <;> cases heq
  | missing _ hbelow habove =>
      exact ⟨fun e he => side_eq_lt.mp (hbelow e he), fun e he => side_eq_gt.mp (habove e he)⟩

/-- Taking cells out. -/
theorem splitFrom_eq (sorted : cells.entries.Pairwise fun e e' => e.1 < e'.1) (slot : Nat) :
    splitFrom cells slot = cells.splitFrom slot := by
  obtain ⟨hbelow, habove⟩ := partitionPoint_parts sorted slot
  have hparts := filter_parts hbelow habove
  rw [List.take_append_drop] at hparts
  refine Prod.ext ?_ (congrArg OpenCells.mk ?_)
  · rw [splitFrom_fst sorted, hparts.2]
    rfl
  · rw [← splitFrom_snd sorted] at hparts
    exact hparts.1.symm

end Halving

end Lox.OpenCells
