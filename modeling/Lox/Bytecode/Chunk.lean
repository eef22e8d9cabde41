import Lox.Bytecode.OpCode
import Lox.Value

/-!
# Chunks

The code of one function: its bytes, the source line of each byte, and the constants that
operands refer to.

## Main definitions

* `Chunk`, and writing, patching and reading it.
* `Chunk.size` — the bytes charged for a chunk by the heap.
-/

namespace Lox

/-- The code of one function. -/
structure Chunk where
  /-- The instruction bytes. -/
  code : Array UInt8 := #[]
  /-- The source line of each byte. -/
  lines : Array Nat := #[]
  /-- The constants, which operands count from zero. -/
  constants : Array Value := #[]
  deriving Inhabited

namespace Chunk

/-- How many constants a one-byte operand can tell apart. -/
def maxConstants : Nat := 256

/-- Appends a byte. -/
def write (c : Chunk) (byte : UInt8) (line : Nat) : Chunk :=
  { c with code := c.code.push byte, lines := c.lines.push line }

/-- Appends a constant and gives its operand, while there is room. -/
def addConstant? (c : Chunk) (value : Value) : Option (UInt8 × Chunk) :=
  if c.constants.size < maxConstants then
    some (UInt8.ofNat c.constants.size, { c with constants := c.constants.push value })
  else none

/-- The high and the low byte of a 16-bit operand. -/
def highByte (value : Nat) : UInt8 := UInt8.ofNat (value / 256)

@[inherit_doc highByte]
def lowByte (value : Nat) : UInt8 := UInt8.ofNat value

/-- The 16-bit number of two bytes, the high one first. -/
def pair (high low : UInt8) : Nat := 256 * high.toNat + low.toNat

theorem pair_high_low {value : Nat} (h : value < 65536) :
    pair (highByte value) (lowByte value) = value := by
  simp only [pair, highByte, lowByte, UInt8.toNat_ofNat']
  omega

/-- The 16-bit operand at an offset. -/
def pairAt? (c : Chunk) (offset : Nat) : Option Nat :=
  match c.code[offset]?, c.code[offset + 1]? with
  | some high, some low => some (pair high low)
  | _, _ => none

/-- Overwrites the 16-bit operand at an offset. -/
def patch (c : Chunk) (offset value : Nat) : Chunk :=
  { c with
    code := (c.code.setIfInBounds offset (highByte value)).setIfInBounds (offset + 1)
      (lowByte value) }

/-- Overwrites the 16-bit operand at an offset, if both its bytes are there. -/
def patch? (c : Chunk) (offset value : Nat) : Option Chunk :=
  if offset + 1 < c.code.size then some (c.patch offset value) else none

/-- The bytes charged for a chunk: one for each code byte, four for each line and sixteen
for each constant. -/
def size (c : Chunk) : Nat := c.code.size + 4 * c.lines.size + 16 * c.constants.size

end Chunk

end Lox
