import Lox.Machine.Step
import Lox.Proofs.Code.Typing

/-!
# Reading typed code

The instructions of a listing are read back from the bytes of a chunk: at the offset of a line
the machine finds the operation and the operand that the line was made of.

## Main definitions

* `OpCode.Form` — the bytes of an operation with its operand.
* `Chunk.Reads` — bytes that stand at an offset.
-/

namespace Lox

variable {constants : List Constant} {upvalues offset operand : Nat} {L pre post : Listing}
  {l : Line} {P : Profile} {bs : List UInt8} {op : OpCode} {c : Chunk}

/-! ### Forms -/

/-- The bytes of an operation with an operand. Behind a closure there are more. -/
inductive OpCode.Form : (op : OpCode) → (operand : Nat) → List UInt8 → Prop
  | plain {op : OpCode} : op.width = 0 → op ≠ .closure → Form op 0 op.plain
  | short {op : OpCode} {i : UInt8} : op.width = 1 → op ≠ .closure → Form op i.toNat (op.short i)
  | long {op : OpCode} {distance : Nat} : op.width = 2 → op ≠ .closure →
      distance ≤ Compiler.maxJump → Form op distance (op.long distance)
  | closure {i : UInt8} (captures : List Capture) :
      Form .closure i.toNat (OpCode.closure.short i ++ captures.flatMap Capture.bytes)

/-- Every instruction that fits is an operation with an operand. -/
theorem Fits.form (fits : Fits constants upvalues L offset P bs) :
    ∃ op operand, OpCode.Form op operand bs := by
  cases fits with
  | @literal op _ h | @drop op _ h | @unary op _ h | @binary op _ h =>
      exact ⟨op, 0, .plain (by revert h; cases op <;> decide) (by rintro rfl; cases h)⟩
  | closeUpvalue | giveBack => exact ⟨_, 0, .plain rfl nofun⟩
  | constant | getLocal | setLocal | getGlobal | defineGlobal | setGlobal | getUpvalue
  | setUpvalue | call => exact ⟨_, _, .short rfl nofun⟩
  | jump h | jumpIfFalse h | loop h => exact ⟨_, _, .long rfl nofun h⟩
  | closure => exact ⟨_, _, .closure _⟩

/-- Every instruction has bytes. -/
theorem OpCode.Form.length_pos (form : OpCode.Form op operand bs) : 0 < bs.length := by
  cases form <;> simp [OpCode.plain, OpCode.short, OpCode.long]

/-- Every instruction of a typed listing has bytes. -/
theorem Listing.Typed.real (typed : L.Typed constants upvalues) :
    ∀ l ∈ L, 0 < l.bytes.length := by
  intro l hl
  obtain ⟨pre, post, rfl⟩ := List.append_of_mem hl
  obtain ⟨op, operand, form⟩ := (typed pre l post rfl).form
  exact form.length_pos

/-! ### Bytes at an offset -/

/-- The operation at an offset. -/
def Chunk.opAt? (c : Chunk) (offset : Nat) : Option OpCode := c.code[offset]?.bind OpCode.ofByte?

/-- Bytes that stand at an offset of a chunk. -/
def Chunk.Reads (c : Chunk) (offset : Nat) (bytes : List UInt8) : Prop :=
  ∀ k < bytes.length, c.code[offset + k]? = bytes[k]?

/-- Bytes stand in front of others. -/
theorem Chunk.Reads.left {ds : List UInt8} (reads : c.Reads offset (bs ++ ds)) :
    c.Reads offset bs := fun k hk => by
  rw [reads k (by rw [List.length_append]; omega), List.getElem?_append_left hk]

/-- Bytes stand behind others. -/
theorem Chunk.Reads.right {ds : List UInt8} (reads : c.Reads offset (bs ++ ds)) :
    c.Reads (offset + bs.length) ds := fun k hk => by
  rw [Nat.add_assoc, reads (bs.length + k) (by rw [List.length_append]; omega),
    List.getElem?_append_right (Nat.le_add_right _ _), Nat.add_sub_cancel_left]

/-- An operation is read where it stands. -/
theorem Chunk.Reads.opAt? (reads : c.Reads offset bs) (form : OpCode.Form op operand bs) :
    c.opAt? offset = some op := by
  rw [Chunk.opAt?, show c.code[offset]? = bs[0]? from reads 0 form.length_pos]
  cases form with
  | plain | short | long => exact OpCode.ofByte?_toByte op
  | closure => exact OpCode.ofByte?_toByte .closure

/-- An operand is read behind its operation. -/
theorem Chunk.Reads.operandAt? (reads : c.Reads offset bs) (form : OpCode.Form op operand bs) :
    Machine.operandAt? c op (offset + 1) = some operand := by
  cases form with
  | plain hwidth => simp [Machine.operandAt?, hwidth]
  | @short op i hwidth =>
      rw [Machine.operandAt?, hwidth]
      simp [reads 1 (by simp [OpCode.short]), OpCode.short]
  | @long op distance hwidth _ hshort =>
      rw [Machine.operandAt?, hwidth]
      have hhigh := reads 1 (by simp [OpCode.long])
      have hlow := reads 2 (by simp [OpCode.long])
      simp only [OpCode.long, List.getElem?_cons_succ, List.getElem?_cons_zero] at hhigh hlow
      simp only [Chunk.pairAt?, hhigh, Nat.add_assoc, Nat.reduceAdd, hlow, Option.some.injEq]
      refine Chunk.pair_high_low ?_
      simp only [Compiler.maxJump] at hshort
      omega
  | @closure i captures =>
      rw [Machine.operandAt?, show OpCode.closure.width = 1 from rfl]
      simp [reads 1 (by simp [OpCode.short]), OpCode.short]

/-- The bytes of an instruction stand at its offset. -/
theorem Listing.reads (code : c.code.toList = (pre ++ l :: post).code) :
    c.Reads pre.size l.bytes := by
  intro k hk
  rw [← Array.getElem?_toList, code, code_append, code_cons, size,
    List.getElem?_append_right (Nat.le_add_right _ _), Nat.add_sub_cancel_left,
    List.getElem?_append_left hk]

/-- The two bytes of each captured variable. -/
theorem getElem?_captures {captures : List Capture} {j : Nat} (hj : j < captures.length) :
    (captures.flatMap Capture.bytes)[2 * j]? = some (if captures[j].isLocal then 1 else 0) ∧
      (captures.flatMap Capture.bytes)[2 * j + 1]? = some captures[j].index := by
  induction captures generalizing j with
  | nil => cases hj
  | cons capture captures ih =>
      cases j with
      | zero => exact ⟨rfl, rfl⟩
      | succ j =>
          have := ih (Nat.lt_of_succ_lt_succ hj)
          simpa [Nat.mul_add, Capture.bytes] using this

/-! ### Constants -/

section

variable {heap : Heap} {k : Constant}

/-- The values behind constants. -/
theorem Heap.HoldsAll.value (holds : heap.HoldsAll c.constants constants) {i : Nat}
    (found : constants[i]? = some k) : ∃ v, c.constants[i]? = some v ∧ heap.Holds v k := by
  obtain ⟨hsize, hall⟩ := Heap.holdsAll_iff.mp holds
  obtain ⟨hi, -⟩ := List.getElem?_eq_some_iff.mp found
  have hi' : i < c.constants.size := hsize ▸ hi
  exact ⟨_, Array.getElem?_eq_getElem hi', hall i _ _ (Array.getElem?_eq_getElem hi') found⟩

/-- The constant that names a global is a string. -/
theorem Heap.HoldsAll.name (holds : heap.HoldsAll c.constants constants) {i : Nat} {name : String}
    (found : constants[i]? = some (.text name)) :
    ∃ h text, c.constants[i]? = some (.object h) ∧ heap.object? h = some (.string text) := by
  obtain ⟨v, hv, htext⟩ := holds.value found
  cases htext with
  | text hs => exact ⟨_, _, hv, hs⟩

end

end Lox
