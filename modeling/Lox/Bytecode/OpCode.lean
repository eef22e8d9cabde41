/-!
# Operation codes

Every instruction is one operation byte followed by the bytes of its operand. The byte of
an operation is its place in the declaration below.

## Main definitions

* `OpCode` — the operations.
* `OpCode.toByte`, `OpCode.ofByte?` — the byte of an operation and back.
* `OpCode.width` — how many operand bytes follow.
-/

namespace Lox

/-- The operations of the machine. -/
inductive OpCode where
  | constant | pushNil | pushTrue | pushFalse | pop
  | getLocal | setLocal | getGlobal | defineGlobal | setGlobal | getUpvalue | setUpvalue
  | equal | greater | less
  | add | subtract | multiply | divide | not | negate
  | print | jump | jumpIfFalse | loop
  | call | closure | closeUpvalue | giveBack
  deriving DecidableEq, Repr

namespace OpCode

/-- The byte of an operation. -/
def toByte (op : OpCode) : UInt8 := UInt8.ofNat op.ctorIdx

/-- The operation of a byte, if it has one. -/
def ofByte? (byte : UInt8) : Option OpCode :=
  match byte.toNat with
  | 0 => some .constant
  | 1 => some .pushNil
  | 2 => some .pushTrue
  | 3 => some .pushFalse
  | 4 => some .pop
  | 5 => some .getLocal
  | 6 => some .setLocal
  | 7 => some .getGlobal
  | 8 => some .defineGlobal
  | 9 => some .setGlobal
  | 10 => some .getUpvalue
  | 11 => some .setUpvalue
  | 12 => some .equal
  | 13 => some .greater
  | 14 => some .less
  | 15 => some .add
  | 16 => some .subtract
  | 17 => some .multiply
  | 18 => some .divide
  | 19 => some .not
  | 20 => some .negate
  | 21 => some .print
  | 22 => some .jump
  | 23 => some .jumpIfFalse
  | 24 => some .loop
  | 25 => some .call
  | 26 => some .closure
  | 27 => some .closeUpvalue
  | 28 => some .giveBack
  | _ => none

/-- How many operand bytes follow the operation byte. A closure is followed by two further
bytes for each variable that its function captures. -/
def width : OpCode → Nat
  | .constant | .getLocal | .setLocal | .getGlobal | .defineGlobal | .setGlobal
  | .getUpvalue | .setUpvalue | .call | .closure => 1
  | .jump | .jumpIfFalse | .loop => 2
  | _ => 0

/-- Whether the next instruction executed may be another than the next one in the code. -/
def isTerminator : OpCode → Bool
  | .giveBack | .jump | .jumpIfFalse | .loop => true
  | _ => false

/-- Whether the operation is one of the four of arithmetic. -/
def isArithmetic : OpCode → Bool
  | .add | .subtract | .multiply | .divide => true
  | _ => false

/-- The complaint about a byte that is no operation: two hexadecimal digits at least. -/
def unknownMessage (byte : UInt8) : String :=
  let digits := Nat.toDigits 16 byte.toNat
  "unknown opcode 0x" ++ String.ofList (if digits.length < 2 then '0' :: digits else digits)

/-! ### The byte of an operation determines it -/

theorem ofByte?_toByte (op : OpCode) : ofByte? op.toByte = some op := by
  cases op <;> rfl

theorem toByte_of_ofByte? {byte : UInt8} {op : OpCode} (h : ofByte? byte = some op) :
    op.toByte = byte := by
  unfold ofByte? at h
  split at h <;> cases h
  all_goals
    rename_i found
    exact UInt8.toNat_inj.mp found.symm

end OpCode

end Lox
