import Lox.Proofs.Machine.Effects

/-!
# Jumps of the machine

A machine that is about to execute a jump reads its operand and goes on at the place that it leads
to. The distance counts from the end of the operand, forward or, for a loop, back. A conditional
jump that is not taken goes on behind its operand.

## Main definitions

* `Machine.Executes` — the machine is about to execute an instruction of some code.
* `Chunk.LeadsTo` — where a jump in some code leads.

## Main results

* `fetch_jump` — reading a jump.
* `leadsTo_of_forward`, `leadsTo_of_loop` — jumps with their distances.
-/

namespace Lox

/-- The machine is about to execute the instruction at an offset of some code. -/
def Machine.Executes (k : Chunk) (offset : Nat) (m : Machine) : Prop :=
  ∃ frame outer function, m.frames = frame :: outer ∧ frame.ip = offset ∧
    m.heap.function frame.function = .ok function ∧ function.chunk = k

/-- The jump at an offset of some code leads to a target: every machine that is about to execute it,
and that takes it, goes on at the target and is the same otherwise. A conditional jump is taken if
the value on top of the stack is falsey, and else the machine goes on behind it. -/
structure Chunk.LeadsTo (k : Chunk) (op : OpCode) (offset target : Nat) : Prop where
  taken : ∀ m : Machine, m.Executes k offset →
    (op = .jumpIfFalse → ∃ v, m.stack.back? = some v ∧ v.isFalsey = true) →
      Machine.step m = .ok .running { m with frames := Machine.moved target m.frames }
  passed : ∀ m : Machine, m.Executes k offset → op = .jumpIfFalse →
    (∃ v, m.stack.back? = some v ∧ v.isFalsey = false) →
      Machine.step m = .ok .running { m with frames := Machine.moved (offset + 3) m.frames }

namespace Machine

variable {k : Chunk} {op : OpCode} {offset distance target : Nat} {m : Machine}

/-- Only the innermost call moves. -/
theorem setIp_eq (ip : Nat) (m : Machine) :
    setIp ip m = .ok () { m with frames := moved ip m.frames } := by
  rw [setIp, modify_apply]
  cases m with
  | mk heap stack frames => cases frames <;> rfl

/-- The innermost call of a machine that is about to execute an instruction. -/
theorem Executes.frame (executes : m.Executes k offset) : ∃ frame outer,
    m.frames = frame :: outer ∧ frame.ip = offset ∧ Machine.frame m = .ok frame m ∧
      chunk m = .ok k m := by
  obtain ⟨frame, outer, function, hframes, hip, hfunction, rfl⟩ := executes
  have hframe : Machine.frame m = .ok frame m := by
    rw [Machine.frame, bind_of_ok (get_apply m), hframes]
    rfl
  refine ⟨frame, outer, hframes, hip, hframe, ?_⟩
  have hask : ask (fun m => m.heap.function frame.function) m = .ok function m := by
    simp [ask, hfunction]
  rw [Machine.chunk, bind_of_ok hframe, bind_of_ok hask]
  rfl

/-- Reading a jump takes the machine behind its operand. -/
theorem fetch_jump (executes : m.Executes k offset) (code : k.code[offset]? = some op.toByte)
    (width : op.width = 2) (operand : k.pairAt? (offset + 1) = some distance) :
    fetch m = .ok (op, distance) { m with frames := moved (offset + 3) m.frames } := by
  obtain ⟨frame, outer, -, rfl, hframe, hchunk⟩ := executes.frame
  have hbyte : demand k.code[frame.ip]? m = .ok op.toByte m := by rw [code]; rfl
  have hoperand : demand (operandAt? k op (frame.ip + 1)) m = .ok distance m := by
    rw [operandAt?, width]
    simp only [operand]
    rfl
  rw [fetch, bind_of_ok hframe, bind_of_ok hchunk, bind_of_ok hbyte, OpCode.ofByte?_toByte]
  dsimp only
  rw [bind_of_ok hoperand, bind_of_ok (setIp_eq _ m), width]
  rfl

/-- Where a call goes on that has moved. -/
theorem frame_moved (executes : m.Executes k offset) (ip : Nat) :
    ∃ frame, Machine.frame { m with frames := moved ip m.frames } =
      .ok frame { m with frames := moved ip m.frames } ∧ frame.ip = ip := by
  obtain ⟨frame, outer, hframes, -⟩ := executes.frame
  refine ⟨{ frame with ip }, ?_, rfl⟩
  rw [Machine.frame, bind_of_ok (get_apply _), hframes]
  rfl

/-- A call that moves twice. -/
theorem moved_moved (ip target : Nat) (frames : List Frame) :
    moved target (moved ip frames) = moved target frames := by
  cases frames <;> rfl

theorem jump_eq (executes : m.Executes k offset) (ip distance : Nat) :
    jump distance { m with frames := moved ip m.frames } =
      .ok () { m with frames := moved (ip + distance) m.frames } := by
  obtain ⟨frame, hframe, rfl⟩ := frame_moved executes ip
  rw [jump, bind_of_ok hframe, setIp_eq, moved_moved]

theorem jumpBack_eq (executes : m.Executes k offset) {ip distance : Nat} (le : distance ≤ ip) :
    jumpBack distance { m with frames := moved ip m.frames } =
      .ok () { m with frames := moved (ip - distance) m.frames } := by
  obtain ⟨frame, hframe, rfl⟩ := frame_moved executes ip
  rw [jumpBack, bind_of_ok hframe, if_pos le, setIp_eq, moved_moved]

/-- The value on top of the stack. -/
theorem peek_zero {v : Value} (top : m.stack.back? = some v) : peek 0 m = .ok v m := by
  rw [Array.back?_eq_getElem?] at top
  have hsize : 0 < m.stack.size := by
    have := (Array.getElem?_eq_some_iff.mp top).1
    omega
  rw [peek, bind_of_ok (get_apply m), if_pos hsize, Nat.sub_zero, top]
  rfl

/-- A step that executes an instruction other than the end of a call. -/
theorem step_of_execute {operand : Nat} {mid last : Machine}
    (fetched : fetch m = .ok (op, operand) mid) (other : op ≠ .giveBack)
    (run : execute op operand mid = .ok () last) : step m = .ok .running last := by
  rw [step, bind_of_ok fetched]
  dsimp only
  rw [if_neg other, bind_of_ok run]
  rfl

/-- A forward jump leads as far as its operand says. -/
theorem leadsTo_of_forward (forward : op = .jump ∨ op = .jumpIfFalse)
    (code : k.code[offset]? = some op.toByte) (operand : k.pairAt? (offset + 1) = some distance) :
    k.LeadsTo op offset (offset + 3 + distance) := by
  have hwidth : op.width = 2 := by rcases forward with rfl | rfl <;> rfl
  have hother : op ≠ .giveBack := by rcases forward with rfl | rfl <;> decide
  constructor
  · intro m executes falsey
    have hfetch := fetch_jump executes code hwidth operand
    refine step_of_execute hfetch hother ?_
    rcases forward with rfl | rfl
    · exact jump_eq executes _ _
    · obtain ⟨v, htop, hfalsey⟩ := falsey rfl
      have hpeek : peek 0 { m with frames := moved (offset + 3) m.frames } = .ok v _ :=
        peek_zero htop
      rw [execute, bind_of_ok hpeek, if_pos hfalsey]
      exact jump_eq executes _ _
  · rintro m executes rfl ⟨v, htop, htruthy⟩
    have hfetch := fetch_jump executes code hwidth operand
    refine step_of_execute hfetch hother ?_
    have hpeek : peek 0 { m with frames := moved (offset + 3) m.frames } = .ok v _ := peek_zero htop
    rw [execute, bind_of_ok hpeek, htruthy]
    rfl

/-- A loop leads back as far as its operand says. -/
theorem leadsTo_of_loop (code : k.code[offset]? = some OpCode.loop.toByte)
    (operand : k.pairAt? (offset + 1) = some distance) (le : distance ≤ offset + 3) :
    k.LeadsTo .loop offset (offset + 3 - distance) := by
  constructor
  · intro m executes _
    exact step_of_execute (fetch_jump executes code rfl operand) (by decide)
      (jumpBack_eq executes le)
  · intro m _ hop
    cases hop

end Machine

end Lox
