import Lox.Proofs.Machine.Extents
import Lox.Proofs.Session.Globals

/-!
# Calls in compiled programs

A call in a compiled program that comes to its end without an error respects the frame that made
it. The frames are those from before, and the caller goes on behind the instruction that called.
The result has taken the place of the callee and the arguments. Below them, the stack has changed
only where the call has assigned a captured variable through its open cell.

The compiler emits typed code, and typed code does not reach below its own frame; so what is left
to do is to put the machine of a session in place of a machine that is ready.

## Main results

* `call_respects_frame` — every call of every compiled program.
-/

namespace Lox.Session

open Machine (Extent Respects)

variable {m mid first m' : Machine} {count : Nat} {writes : List (Nat × Value)}

/-- Calls respect the frame of the caller. Whichever call a compiled program makes, at whatever
point of the run, of a closure or of a host function: if it comes to its end, the frames and the
stack are as they were, but for the result and for captured variables that have been assigned. -/
theorem call_respects_frame (underway : Underway HostFunction.Conforms m)
    (reads : Machine.fetch m = .ok (.call, count) mid)
    (run : Machine.step m = .ok .running first) (extent : Extent m.frames.length first writes m') :
    Respects m first m' count writes :=
  underway.ready.1.respects reads run extent

/-- A program that assigns a captured variable in a call, while the variable lives on the stack. -/
def framedSource : String :=
  "fun f() { var x = 1; fun g(y) { x = y; return x; } g(5); print x; } f();"

/-- Whether a machine makes a call with arguments that comes to its end and assigns something
through an open cell. -/
def callsAndAssigns (m : Machine) : Bool :=
  match Machine.fetch m, Machine.step m with
  | .ok (.call, count) _, .ok .running first =>
    match Machine.follow m.frames.length 20 first with
    | some (writes, _) => 0 < count && !writes.isEmpty
    | none => false
  | _, _ => false

/-- The inner call of the program is made after eight instructions. -/
theorem call_respects_frame_assigned : ∃ m mid first m' count writes,
    Underway HostFunction.Conforms m ∧ Machine.fetch m = .ok (.call, count) mid ∧
    Machine.step m = .ok .running first ∧ Extent m.frames.length first writes m' ∧
    0 < count ∧ writes ≠ [] ∧ Respects m first m' count writes := by
  have passes : passesAfter 8 framedSource callsAndAssigns = true := by decide +kernel
  obtain ⟨m, underway, hcheck⟩ := underway_of_passesAfter passes
  unfold callsAndAssigns at hcheck
  split at hcheck
  · rename_i count mid first hfetch hstep
    split at hcheck
    · rename_i writes m' hfollow
      have hextent := Machine.extent_of_follow hfollow
      rw [Bool.and_eq_true, decide_eq_true_eq, Bool.not_eq_true',
        List.isEmpty_eq_false_iff] at hcheck
      exact ⟨m, mid, first, m', count, writes, underway, hfetch, hstep, hextent, hcheck.1, hcheck.2,
        call_respects_frame underway hfetch hstep hextent⟩
    · cases hcheck
  · cases hcheck

end Lox.Session
