import Lox.Proofs.Session.Atomicity

/-!
# Open cells are known

A captured variable that still lives on the stack is described twice: the machine lists its slot
and its cell, and the cell says that it is open at the slot. The two never part ways. The
invariants of the instructions each give a half of it. A machine that is ready for an instruction
lists nothing but open cells of its stack, because compiled code closes a captured variable before
it leaves the stack (`Machine.Ready`); and whatever code a machine executes, it lists all open
cells of its heap, in the order of their slots, and closures capture cells (`Machine.Tidy`).

## Main definitions

* `Session.Boundary` — the machines between two instructions.
* `Machine.CellsKnown` — the list of open cells is exact.

## Main results

* `open_cells_known` — at every boundary.
-/

namespace Lox

/-- The list of open cells is exact: it lists slots of the stack, each once and in order, with the
cells that are open at them, and no other cell is open. What a closure has captured is listed or
has been closed. -/
structure Machine.CellsKnown (m : Machine) : Prop where
  sorted : m.openCells.entries.Pairwise fun e e' => e.1 < e'.1
  below : ∀ e ∈ m.openCells.entries, e.1 < m.stack.size
  opened : ∀ e ∈ m.openCells.entries, m.heap.object? e.2 = some (.cell (.opened e.1))
  listed : ∀ h slot, m.heap.object? h = some (.cell (.opened slot)) →
    (slot, h) ∈ m.openCells.entries
  captured : ∀ h c, m.heap.object? h = some (.closure c) → ∀ g ∈ c.cells.toList,
    (∃ slot, (slot, g) ∈ m.openCells.entries) ∨ ∃ v, m.heap.object? g = some (.cell (.closed v))

namespace Machine

variable {m : Machine}

/-- Cells that closures have captured are listed while they are open. -/
theorem Tracked.captured (tracked : m.Tracked) {h : Handle} {c : Closure}
    (hc : m.heap.object? h = some (.closure c)) {g : Handle} (hg : g ∈ c.cells.toList) :
    (∃ slot, (slot, g) ∈ m.openCells.entries) ∨
      ∃ v, m.heap.object? g = some (.cell (.closed v)) := by
  obtain ⟨state, hstate⟩ := tracked.wired h c hc g hg
  cases state with
  | opened slot => exact .inl ⟨slot, tracked.cells g slot hstate⟩
  | closed v => exact .inr ⟨v, hstate⟩

/-- A machine that is ready for the next instruction of compiled code knows its open cells. -/
theorem Ready.cellsKnown (ready : m.Ready) (tidy : m.Tidy) : m.CellsKnown := by
  obtain ⟨C, P, poised, -⟩ := ready
  exact ⟨tidy.sorted, fun _ he => poised.open_lt he, poised.secure.opened, tidy.cells,
    fun _ _ hc _ hg => tidy.toTracked.captured hc hg⟩

/-- A vacant machine has no open cell to know. -/
theorem Vacant.cellsKnown (vacant : m.Vacant) : m.CellsKnown := by
  have tracked := vacant.tracked
  exact ⟨tracked.sorted, by simp [vacant.openCells], by simp [vacant.openCells], tracked.cells,
    fun _ _ hc _ hg => tracked.captured hc hg⟩

end Machine

namespace Session

variable {m : Machine} {admits : HostFunction → Prop}

/-- A machine between two instructions: in the middle of a compiled program, or before it or
after its end, whichever end that was. -/
inductive Boundary (admits : HostFunction → Prop) (m : Machine) : Prop
  | inside : Underway admits m → Boundary admits m
  | outside : Arises admits m → Boundary admits m

/-- Between any two instructions of every compiled program of every history, the machine lists
exactly the open cells of its heap. -/
theorem open_cells_known (boundary : Boundary HostFunction.Conforms m) : m.CellsKnown := by
  cases boundary with
  | inside underway =>
      obtain ⟨ready, tidy⟩ := underway.ready
      exact ready.cellsKnown tidy
  | outside arises => exact arises.vacant.cellsKnown

/-- A captured variable lives on the stack while the program that is abandoned later runs. -/
theorem open_cells_known_captured : ∃ m, Boundary HostFunction.Conforms m ∧
    m.openCells.entries.isEmpty = false ∧ m.CellsKnown := by
  have raised : raisesAfter 15 abandonedSource = true := by decide +kernel
  obtain ⟨m, -, -, underway, -, hopen⟩ := underway_of_raisesAfter raised
  exact ⟨m, .inside underway, hopen, open_cells_known (.inside underway)⟩

end Session

end Lox
