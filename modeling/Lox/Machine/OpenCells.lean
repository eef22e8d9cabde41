import Lox.Value

/-!
# Open cells

While a captured variable lives on the stack, all closures that capture it must share one
cell. The open cells are therefore kept by the stack slot they stand for, lowest slot first,
with at most one cell for a slot.

## Main definitions

* `OpenCells.find?`, `OpenCells.insert`, `OpenCells.splitFrom`.
-/

namespace Lox

/-- The open cells, by increasing slot. -/
structure OpenCells where
  /-- Each open cell with its slot. -/
  entries : List (Nat × Handle) := []
  deriving DecidableEq, Repr

namespace OpenCells

/-- The open cell of a slot. -/
def find? (cells : OpenCells) (slot : Nat) : Option Handle :=
  (cells.entries.find? (·.1 = slot)).map (·.2)

/-- Adds an entry at its place; a slot that has a cell keeps it. -/
def insertEntry (slot : Nat) (cell : Handle) : List (Nat × Handle) → List (Nat × Handle)
  | [] => [(slot, cell)]
  | entry :: higher =>
    if entry.1 < slot then entry :: insertEntry slot cell higher
    else if entry.1 = slot then entry :: higher
    else (slot, cell) :: entry :: higher

/-- Adds the cell of a slot; a slot that has a cell keeps it. -/
def insert (cells : OpenCells) (slot : Nat) (cell : Handle) : OpenCells :=
  ⟨insertEntry slot cell cells.entries⟩

/-- The cells at or above a slot, lowest first, and the cells below it. -/
def splitFrom (cells : OpenCells) (slot : Nat) : List (Nat × Handle) × OpenCells :=
  (cells.entries.dropWhile (·.1 < slot), ⟨cells.entries.takeWhile (·.1 < slot)⟩)

end OpenCells

end Lox
