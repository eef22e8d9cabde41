import Lox.Proofs.Machine.OpenCells.Halving
import Mathlib.Data.List.DropRight
import Mathlib.Logic.Function.Basic

/-!
# Open cells as a finite map

The machine keeps its open cells as a sorted list. Whatever is done with them, they behave as a
finite map from slots to cells: a slot that has a cell keeps it, a look-up finds it, and what is
split off are the entries at or above a slot. The sorted list answers as the map does, and it lists
the graph of the map in the order of the slots.

What the map holds follows from the history alone. A slot is absent from the last operation that
could free it until it is offered a cell. It keeps this first cell, whatever it is offered later.

A ledger beside the cells records what has been added and where it went. Every entry that was added
is still listed, or was returned once, or was cleared.

## Main definitions

* `Operation`, `Answer`, `perform` — what is done with open cells.
* `Ledger`, `ledger` — the open cells after a history, with an account of their entries.
* `holder` — the cell of a slot as the history tells it.
* `Table`, `Table.Performs`, `Table.Runs` — the finite map and its operations.
* `Represents` — open cells as the map that a history describes.

## Main results

* `perform_sorted`, `perform_performs`, `perform_conserves` — one operation.
* `Table.Runs.eq_holder`, `ledger_sorted`, `ledger_runs`, `ledger_conserves` — histories.
* `slots_form_map` — all of it, after every history.
-/

namespace Lox.OpenCells

/-! ### Histories -/

/-- What is done with open cells. -/
inductive Operation where
  /-- Adds the cell of a slot. -/
  | insert (slot : Nat) (cell : Handle)
  /-- Looks for the cell of a slot. -/
  | find (slot : Nat)
  /-- Takes out the cells at or above a slot. -/
  | splitFrom (slot : Nat)
  /-- Forgets all cells. -/
  | clear

/-- What an operation returns. -/
inductive Answer where
  | done
  | cell (found : Option Handle)
  | cells (taken : List (Nat × Handle))

/-- The entries that are returned. -/
@[simp] def Answer.entries : Answer → List (Nat × Handle)
  | .cells taken => taken
  | .done | .cell _ => []

/-- Does an operation. -/
def perform (cells : OpenCells) : Operation → Answer × OpenCells
  | .insert slot cell => (.done, cells.insert slot cell)
  | .find slot => (.cell (cells.find? slot), cells)
  | .splitFrom slot => (.cells (cells.splitFrom slot).1, (cells.splitFrom slot).2)
  | .clear => (.done, {})

namespace Operation

/-- The entry that is added. A slot that has a cell gets none. -/
@[simp] def adds (cells : OpenCells) : Operation → List (Nat × Handle)
  | insert slot cell => if (cells.find? slot).isSome then [] else [(slot, cell)]
  | find _ | splitFrom _ | clear => []

/-- The entries that are forgotten without being returned. -/
@[simp] def forgets (cells : OpenCells) : Operation → List (Nat × Handle)
  | clear => cells.entries
  | insert .. | find _ | splitFrom _ => []

/-- Whether the cell of a slot goes, if there is one. -/
@[simp] def frees (slot : Nat) : Operation → Bool
  | splitFrom lowest => lowest ≤ slot
  | clear => true
  | insert .. | find _ => false

/-- The cell that is offered to a slot. -/
@[simp] def offers? (slot : Nat) : Operation → Option Handle
  | insert other cell => if other = slot then some cell else none
  | find _ | splitFrom _ | clear => none

end Operation

/-- Open cells with an account of their entries. -/
structure Ledger where
  cells : OpenCells := {}
  /-- What was answered, the first answer first. -/
  answers : List Answer := []
  /-- The entries that were added. -/
  added : List (Nat × Handle) := []
  /-- The entries that were forgotten without being returned. -/
  forgotten : List (Nat × Handle) := []

/-- Does an operation and keeps account of it. -/
def Ledger.enter (l : Ledger) (op : Operation) : Ledger where
  cells := (l.cells.perform op).2
  answers := l.answers ++ [(l.cells.perform op).1]
  added := l.added ++ op.adds l.cells
  forgotten := l.forgotten ++ op.forgets l.cells

/-- The entries that were returned. -/
def Ledger.returned (l : Ledger) : List (Nat × Handle) := l.answers.flatMap Answer.entries

/-- The open cells after a history that starts without any. -/
def ledger (history : List Operation) : Ledger := history.foldl Ledger.enter {}

/-- The cell of a slot as the history tells it: the first one that was offered since the slot was
freed last, or ever if it never was. -/
def holder (slot : Nat) (history : List Operation) : Option Handle :=
  (history.rtakeWhile fun op => !op.frees slot).findSome? (·.offers? slot)

variable {cells : OpenCells} {op : Operation} {history : List Operation} {slot : Nat}

/-- One more operation. -/
theorem ledger_concat (history : List Operation) (op : Operation) :
    ledger (history ++ [op]) = (ledger history).enter op := List.foldl_concat ..

/-- What a slot holds after one more operation. -/
theorem holder_concat (slot : Nat) (history : List Operation) (op : Operation) :
    holder slot (history ++ [op]) =
      if op.frees slot then none else (holder slot history).or (op.offers? slot) := by
  unfold holder
  cases hfrees : op.frees slot with
  | true =>
      rw [List.rtakeWhile_concat_neg _ _ _ (by simp only [hfrees]; decide)]
      rfl
  | false =>
      rw [List.rtakeWhile_concat_pos _ _ _ (by simp only [hfrees]; decide), List.findSome?_append]
      rw [List.findSome?_singleton, if_neg (by decide)]

-- Freed by a split, the slot is offered two cells, and keeps the first.
example : holder 2 [.insert 2 ⟨1⟩, .splitFrom 0, .insert 2 ⟨5⟩, .insert 3 ⟨6⟩, .insert 2 ⟨7⟩] =
    some ⟨5⟩ := rfl

/-! ### The finite map -/

/-- A map from slots to cells. -/
abbrev Table := Nat → Option Handle

namespace Table

/-- What the operations do with a map. -/
inductive Performs (T : Table) : Operation → Answer → Table → Prop
  /-- A slot that has no cell gets the new one. -/
  | added {slot : Nat} {cell : Handle} : T slot = none →
      Performs T (.insert slot cell) .done (Function.update T slot (some cell))
  /-- A slot that has a cell keeps it. -/
  | kept {slot : Nat} {cell held : Handle} : T slot = some held →
      Performs T (.insert slot cell) .done T
  | found (slot : Nat) : Performs T (.find slot) (.cell (T slot)) T
  /-- What is split off is listed by increasing slot. -/
  | split {slot : Nat} {taken : List (Nat × Handle)} :
      (taken.Pairwise fun e e' => e.1 < e'.1) →
      (∀ other cell, (other, cell) ∈ taken ↔ slot ≤ other ∧ T other = some cell) →
      Performs T (.splitFrom slot) (.cells taken) fun other =>
        if other < slot then T other else none
  | cleared : Performs T .clear .done fun _ => none

/-- What histories do with a map that is empty at first. -/
inductive Runs : List Operation → List Answer → Table → Prop
  | start : Runs [] [] fun _ => none
  | step {history : List Operation} {answers : List Answer} {T T' : Table} {op : Operation}
      {answer : Answer} : Runs history answers T → T.Performs op answer T' →
      Runs (history ++ [op]) (answers ++ [answer]) T'

end Table

/-! ### One operation -/

/-- Every operation keeps the open cells sorted. -/
theorem perform_sorted (sorted : cells.entries.Pairwise fun e e' => e.1 < e'.1) (op : Operation) :
    (cells.perform op).2.entries.Pairwise fun e e' => e.1 < e'.1 := by
  cases op with
  | insert slot cell => exact insert_sorted sorted
  | find slot => exact sorted
  | splitFrom slot => exact splitFrom_sorted sorted
  | clear => exact .nil

/-- Every operation does to sorted cells what it does to the map. -/
theorem perform_performs (sorted : cells.entries.Pairwise fun e e' => e.1 < e'.1) (op : Operation) :
    Table.Performs cells.find? op (cells.perform op).1 (cells.perform op).2.find? := by
  cases op with
  | insert slot cell =>
      cases hfind : cells.find? slot with
      | some held =>
          rw [perform, insert_of_found sorted hfind]
          exact .kept hfind
      | none =>
          have hupdate : (cells.insert slot cell).find? =
              Function.update cells.find? slot (some cell) := by
            refine Function.eq_update_iff.mpr
              ⟨find?_insert_self sorted hfind, fun other hne => ?_⟩
            exact find?_insert_of_ne sorted hne
          rw [perform, hupdate]
          exact .added hfind
  | find slot => exact .found slot
  | splitFrom slot =>
      have hleft : (cells.splitFrom slot).2.find? =
          fun other => if other < slot then cells.find? other else none :=
        funext (find?_splitFrom sorted slot)
      rw [perform, hleft]
      refine .split (sorted.sublist (List.dropWhile_sublist _)) fun other cell => ?_
      rw [splitFrom_fst sorted, List.mem_filter, decide_eq_true_eq, find?_eq_some_iff sorted]
      exact and_comm
  | clear => exact .cleared

/-- No operation loses an entry or duplicates one. -/
theorem perform_conserves (sorted : cells.entries.Pairwise fun e e' => e.1 < e'.1)
    (op : Operation) :
    ((cells.perform op).2.entries ++ (cells.perform op).1.entries ++ op.forgets cells).Perm
      (cells.entries ++ op.adds cells) := by
  cases op with
  | insert slot cell =>
      simp only [perform, Answer.entries, Operation.forgets, Operation.adds, List.append_nil]
      cases hfind : cells.find? slot with
      | some held => simp [insert_of_found sorted hfind]
      | none =>
          rw [if_neg (by simp)]
          exact (insert_perm hfind).trans (List.perm_append_singleton _ _).symm
  | find slot => simp [perform]
  | splitFrom slot => simp [perform, splitFrom_append]
  | clear => simp [perform]

/-! ### Histories of the finite map -/

namespace Table

variable {T T' : Table} {answer : Answer} {answers : List Answer}

/-- What a map holds after an operation. -/
theorem Performs.eq (performs : T.Performs op answer T') (slot : Nat) :
    T' slot = if op.frees slot then none else (T slot).or (op.offers? slot) := by
  cases performs with
  | @added other cell hnone =>
      by_cases heq : slot = other
      · subst heq
        simp [hnone]
      · simp [Function.update_of_ne heq, Ne.symm heq]
  | @kept other cell held hheld =>
      by_cases heq : other = slot
      · subst heq
        simp [hheld]
      · simp [heq]
  | found other => simp
  | @split lowest taken _ _ =>
      by_cases hlt : slot < lowest
      · simp [hlt, Nat.not_le.mpr hlt]
      · simp [hlt, Nat.not_lt.mp hlt]
  | cleared => rfl

/-- A map holds what its history tells. -/
theorem Runs.eq_holder (runs : Runs history answers T) (slot : Nat) :
    T slot = holder slot history := by
  induction runs with
  | start => rfl
  | step _ hperforms ih => rw [hperforms.eq, holder_concat, ih]

end Table

/-! ### Histories of open cells -/

/-- The open cells are sorted after every history. -/
theorem ledger_sorted (history : List Operation) :
    (ledger history).cells.entries.Pairwise fun e e' => e.1 < e'.1 := by
  induction history using List.reverseRecOn with
  | nil => exact .nil
  | append_singleton history op ih =>
      rw [ledger_concat]
      exact perform_sorted ih op

/-- The open cells answer every history as the map does, and hold what the map holds. -/
theorem ledger_runs (history : List Operation) :
    Table.Runs history (ledger history).answers (ledger history).cells.find? := by
  induction history using List.reverseRecOn with
  | nil => exact .start
  | append_singleton history op ih =>
      rw [ledger_concat]
      exact ih.step (perform_performs (ledger_sorted history) op)

/-- Every entry that a history has added is still listed, or was returned, or was forgotten, and
only one of them. -/
theorem ledger_conserves (history : List Operation) :
    ((ledger history).cells.entries ++ (ledger history).returned ++ (ledger history).forgotten).Perm
      (ledger history).added := by
  induction history using List.reverseRecOn with
  | nil => exact .refl _
  | append_singleton history op ih =>
      have hstep := perform_conserves (ledger_sorted history) op
      rw [ledger_concat]
      simp only [Ledger.enter, Ledger.returned, List.flatMap_append, List.flatMap_singleton]
      -- Counted for one entry, the permutations are sums.
      rw [List.perm_iff_count] at ih hstep ⊢
      intro e
      have hbefore := ih e
      have hafter := hstep e
      simp only [Ledger.returned, List.count_append] at hbefore hafter ⊢
      omega

/-- Open cells as the finite map that their history describes. -/
structure Represents (history : List Operation) (l : Ledger) : Prop where
  /-- The list is strictly increasing by slot. -/
  sorted : l.cells.entries.Pairwise fun e e' => e.1 < e'.1
  /-- It lists the graph of the map. -/
  graph : ∀ slot cell, (slot, cell) ∈ l.cells.entries ↔ l.cells.find? slot = some cell
  /-- The answers were those of the map, and the map holds what is found. -/
  runs : Table.Runs history l.answers l.cells.find?
  /-- What is found is the first cell that was offered since the slot was freed last. -/
  found : ∀ slot, l.cells.find? slot = holder slot history
  /-- Adding a cell for a slot that has one changes nothing. -/
  kept : ∀ slot cell, (l.cells.find? slot).isSome → l.cells.insert slot cell = l.cells
  /-- A split returns the entries at or above the slot. -/
  taken : ∀ slot, (l.cells.splitFrom slot).1 = l.cells.entries.filter (slot ≤ ·.1)
  /-- It leaves the others. -/
  left : ∀ slot, (l.cells.splitFrom slot).2.entries = l.cells.entries.filter (·.1 < slot)
  /-- No entry is lost, and none is returned twice. -/
  conserved : (l.cells.entries ++ l.returned ++ l.forgotten).Perm l.added
  /-- Searching by halving makes no difference. -/
  halved : ∀ slot, Halving.find? l.cells slot = l.cells.find? slot ∧
    (∀ cell, Halving.insert l.cells slot cell = l.cells.insert slot cell) ∧
    Halving.splitFrom l.cells slot = l.cells.splitFrom slot

/-- Whatever is done with open cells, starting without any, they form the finite map that the
history describes. -/
theorem slots_form_map (history : List Operation) : Represents history (ledger history) := by
  have sorted := ledger_sorted history
  exact {
    sorted
    graph := fun _ _ => (find?_eq_some_iff sorted).symm
    runs := ledger_runs history
    found := (ledger_runs history).eq_holder
    kept := fun slot cell hsome => by
      obtain ⟨held, hheld⟩ := Option.isSome_iff_exists.mp hsome
      exact insert_of_found sorted hheld
    taken := splitFrom_fst sorted
    left := splitFrom_snd sorted
    conserved := ledger_conserves history
    halved := fun slot => ⟨Halving.find?_eq sorted slot, Halving.insert_eq sorted slot,
      Halving.splitFrom_eq sorted slot⟩ }

end Lox.OpenCells
