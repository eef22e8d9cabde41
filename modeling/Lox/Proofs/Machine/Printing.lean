import Lox.Proofs.Machine.Pervasive

/-!
# What a program prints

The lines that a program prints are the texts of the values that its print instructions find on
top of the stack. Nothing else writes to the printout, and nothing ever looks at it. So a machine
with another printout takes the same steps and prints the same lines, whatever its printout keeps of
them.

## Main definitions

* `Machine.reprint` — a machine with another printout.
* `Machine.Quiet` — an action that has nothing to do with the printout.
* `Machine.nextLines`, `Machine.runLines` — the lines that a step and a run print.

## Main results

* `execute_quiet` — only one instruction prints.
* `step_reprint`, `run_reprint` — steps and runs with another printout.
-/

namespace Lox

namespace Printout

/-- A printout after some more lines have been written. -/
def writeLines (p : Printout) (lines : List String) : Printout := lines.foldl writeLine p

@[simp]
theorem writeLines_nil (p : Printout) : p.writeLines [] = p := rfl

theorem writeLines_append (p : Printout) (first second : List String) :
    p.writeLines (first ++ second) = (p.writeLines first).writeLines second :=
  List.foldl_append

end Printout

namespace Machine

variable {m : Machine} {α β : Type}

/-- A machine with another printout. -/
def reprint (p : Printout) (m : Machine) : Machine := { m with printout := p }

/-- An action is **quiet** when it has nothing to do with the printout: it does the same whatever
that is, and leaves it as it is. -/
def Quiet (x : Action α) : Prop := ∀ m p, x (reprint p m) = onState (reprint p) (x m)

/-! ### Parts of actions -/

namespace Quiet

theorem pure (a : α) : Quiet (Pure.pure a : Action α) := fun _ _ => rfl

theorem stop (f : Fault) : Quiet (Machine.stop f : Action α) := fun _ _ => rfl

theorem throw (e : Interruption) : Quiet (MonadExcept.throw e : Action α) := fun _ _ => rfl

theorem bind {x : Action α} {f : α → Action β} (first : Quiet x) (rest : ∀ a, Quiet (f a)) :
    Quiet (x >>= f) :=
  fun m p => bind_onState (first m p) fun a m' => rest a m' p

/-- Looking at the machine, but not at the printout. -/
theorem read {f : Machine → Action α} (same : ∀ m p, f (reprint p m) = f m)
    (rest : ∀ m, Quiet (f m)) : Quiet (get >>= f) := by
  intro m p
  rw [bind_of_ok (get_apply _), bind_of_ok (get_apply _), same]
  exact rest m m p

/-- Changing the machine, but not the printout. -/
theorem change {f : Machine → Machine} (same : ∀ m p, f (reprint p m) = reprint p (f m)) :
    Quiet (modify f : Action Unit) := by
  intro m p
  rw [modify_apply, modify_apply, same]
  rfl

theorem ask {question : Machine → Except Fault α}
    (same : ∀ m p, question (reprint p m) = question m) : Quiet (Machine.ask question) := by
  intro m p
  unfold Machine.ask
  rw [same]
  cases question m with
  | ok a => rfl
  | error f => rfl

theorem demand (o : Option α) : Quiet (Machine.demand o) := by
  cases o with
  | none => exact .stop _
  | some a => exact .pure a

theorem ite {p : Prop} [Decidable p] {x y : Action α} (yes : Quiet x) (no : Quiet y) :
    Quiet (if p then x else y) := by
  split
  · exact yes
  · exact no

theorem onHeap (operation : HeapM α) : Quiet (Machine.onHeap operation) := by
  intro m p
  simp only [Machine.onHeap, reprint]
  cases operation m.heap with
  | ok a heap => rfl
  | error f heap => rfl

theorem withRoots (operation : List Handle → HeapM α) : Quiet (Machine.withRoots operation) := by
  intro m p
  simp only [Machine.withRoots, reprint]
  cases operation (roots m.stack m.frames m.openCells m.globals) m.heap with
  | ok a heap => rfl
  | error f heap => rfl

theorem forM {γ : Type} {f : γ → Action PUnit} (each : ∀ c, Quiet (f c)) (cs : List γ) :
    Quiet (cs.forM f) := by
  induction cs with
  | nil => exact .pure _
  | cons c cs ih => exact .bind (each c) fun _ => ih

end Quiet

/-! ### The stack and the cells -/

theorem slotValue_quiet (slot : Nat) : Quiet (slotValue slot) :=
  .read (fun _ _ => rfl) fun _ => .demand _

theorem closeFrom_quiet (slot : Nat) : Quiet (closeFrom slot) :=
  .read (fun _ _ => rfl) fun _ => .bind (.change fun _ _ => rfl) fun _ =>
    .forM (fun _ => .bind (slotValue_quiet _) fun _ => .onHeap _) _

theorem openCell_quiet (slot : Nat) : Quiet (openCell slot) := by
  refine .read (fun _ _ => rfl) fun m => ?_
  cases m.openCells.find? slot with
  | some cell => exact .pure _
  | none => exact .bind (.withRoots _) fun _ => .bind (.change fun _ _ => rfl) fun _ => .pure _

theorem raise_quiet (cause : Cause) : Quiet (raise cause : Action α) :=
  .bind (.ask fun _ _ => rfl) fun _ =>
    .bind (.bind (closeFrom_quiet 0) fun _ => .change fun _ _ => rfl) fun _ => .throw _

theorem push_quiet (v : Value) : Quiet (push v) := by
  intro m p
  by_cases hfull : m.stackMax ≤ m.stack.size
  · rw [show push v m = raise .stackOverflow m from if_pos hfull,
      show push v (reprint p m) = raise .stackOverflow (reprint p m) from if_pos hfull]
    exact raise_quiet _ m p
  · rw [show push v m = .ok () { m with stack := m.stack.push v } from if_neg hfull]
    exact if_neg hfull

theorem setIp_quiet (ip : Nat) : Quiet (setIp ip) := by
  refine .change fun m p => ?_
  rw [show (reprint p m).frames = m.frames from rfl]
  cases m.frames with
  | nil => rfl
  | cons => rfl

theorem capturedCell_quiet (index : Nat) : Quiet (capturedCell index) :=
  .bind (.read (fun _ _ => rfl) fun _ => .demand _) fun _ => .bind (.ask fun _ _ => rfl) fun _ =>
    .demand _

/-! ### Instructions and steps -/

/-- All actions that do not print are quiet. -/
theorem Quiet.pervasive : Pervasive fun _ => Quiet where
  pure := .pure
  stop := .stop
  bind := .bind
  read blind := .read fun m p => blind m p m.diagnostics m.stackMax
  ask blind := .ask fun m p => blind m p m.diagnostics m.stackMax
  raise := raise_quiet
  push := push_quiet
  restack _ := .change fun _ _ => rfl
  countHostCall := .change fun _ _ => rfl
  setIp := setIp_quiet
  enter _ := .change fun _ _ => rfl
  closeFrom := closeFrom_quiet
  setCell _ _ := .onHeap _
  captureLocal _ slot := .bind (openCell_quiet slot) fun _ => .onHeap _
  captureCaptured _ index := .bind (capturedCell_quiet index) fun _ => .onHeap _
  concat _ _ := .withRoots _
  allocateClosure _ := .withRoots _

/-- Only one instruction prints. -/
theorem execute_quiet {op : OpCode} (operand : Nat) (other : op ≠ .print) :
    Quiet (execute op operand) :=
  Quiet.pervasive.execute operand (fun hprint => absurd hprint other)
    fun _ _ _ => .change fun _ _ => rfl

theorem giveBack_quiet : Quiet giveBack :=
  Quiet.pervasive.giveBack fun _ => .change fun _ _ => rfl

/-! ### Lines -/

/-- The line that a machine prints by an instruction that prints: the text of the value on top of
the stack, if it has one. -/
def topLine (m : Machine) : List String :=
  match m.heap.display (m.stack.back?.getD .nil) with
  | .ok text => [text]
  | .error _ => []

/-- The lines that the next step prints: one if the next instruction prints, and else none. -/
def nextLines (m : Machine) : List String :=
  match fetch m with
  | .ok (.print, _) m' => m'.topLine
  | .ok _ _ => []
  | .error _ _ => []

/-- The lines that a run prints, in order. -/
def runLines : (budget : Nat) → Machine → List String
  | 0, _ => []
  | budget + 1, m =>
    m.nextLines ++ match step m with
      | .ok .running m' => runLines budget m'
      | .ok .halted _ => []
      | .error _ _ => []

/-- The next step prints nothing but with the one instruction. -/
theorem nextLines_of_ne {m m' : Machine} {op : OpCode} {operand : Nat}
    (fetched : fetch m = .ok (op, operand) m') (other : op ≠ .print) : m.nextLines = [] := by
  unfold nextLines
  rw [fetched]
  cases op <;> first | rfl | exact absurd rfl other

/-- Printing takes a value off the stack, and faults if it has no text. -/
theorem print_apply (m : Machine) : print m =
    match m.heap.display (m.stack.back?.getD .nil) with
    | .ok text => .ok () { m with stack := m.stack.pop, printout := m.printout.writeLine text }
    | .error f => .error (.fault f) { m with stack := m.stack.pop } := by
  simp only [print, bind, EStateM.bind, pop, ask, get_apply, modify_apply, pure_apply]
  cases m.heap.display (m.stack.back?.getD .nil) with
  | ok text => rfl
  | error f => rfl

/-- Printing writes one line, unless the value has no text. -/
theorem print_reprint (m : Machine) (p : Printout) :
    print (reprint p m) = onState (reprint (p.writeLines m.topLine)) (print m) := by
  rw [print_apply, print_apply, topLine]
  change (match m.heap.display (m.stack.back?.getD .nil) with | .ok _ => _ | .error _ => _) = _
  cases m.heap.display (m.stack.back?.getD .nil) with
  | ok text => rfl
  | error f => rfl

/-- A step with another printout. -/
theorem step_reprint (m : Machine) (p : Printout) :
    step (reprint p m) = onState (reprint (p.writeLines m.nextLines)) (step m) := by
  have hfetch := Quiet.pervasive.fetch m p
  cases hnext : fetch m with
  | error e m' =>
      have hnone : m.nextLines = [] := by rw [nextLines, hnext]
      rw [hnext] at hfetch
      rw [hnone, step, bind_of_error hnext, bind_of_error hfetch]
      rfl
  | ok next m' =>
      obtain ⟨op, operand⟩ := next
      rw [hnext] at hfetch
      rw [step, bind_of_ok hnext, bind_of_ok hfetch]
      by_cases hprint : op = .print
      · subst hprint
        have hlines : m.nextLines = m'.topLine := by rw [nextLines, hnext]
        rw [hlines]
        change (print >>= fun _ => pure .running : Action Status) (reprint p m') =
          onState _ ((print >>= fun _ => pure .running : Action Status) m')
        have hprint := print_reprint m' p
        cases hrun : print m' with
        | ok u last =>
            rw [hrun] at hprint
            rw [bind_of_ok hrun, bind_of_ok hprint]
            rfl
        | error e last =>
            rw [hrun] at hprint
            rw [bind_of_error hrun, bind_of_error hprint]
            rfl
      · rw [nextLines_of_ne hnext hprint]
        exact Quiet.ite giveBack_quiet
          (.bind (execute_quiet operand hprint) fun _ => .pure _) m' p

/-- What the next step prints does not depend on the printout. -/
theorem nextLines_reprint (m : Machine) (p : Printout) : (reprint p m).nextLines = m.nextLines := by
  unfold nextLines
  rw [Quiet.pervasive.fetch m p]
  cases fetch m with
  | error e m' => rfl
  | ok next m' =>
      obtain ⟨op, operand⟩ := next
      cases op <;> rfl

/-- What a run prints does not depend on the printout. -/
theorem runLines_reprint (budget : Nat) (m : Machine) (p : Printout) :
    (reprint p m).runLines budget = m.runLines budget := by
  induction budget generalizing m p with
  | zero => rfl
  | succ budget ih =>
      rw [runLines, runLines, nextLines_reprint, step_reprint]
      cases step m with
      | error e m' => rfl
      | ok status m' =>
          cases status with
          | halted => rfl
          | running => exact congrArg (m.nextLines ++ ·) (ih m' _)

/-- A run with another printout. -/
theorem run_reprint (budget : Nat) (m : Machine) (p : Printout) :
    run budget (reprint p m) =
      onState (reprint (p.writeLines (m.runLines budget))) (run budget m) := by
  induction budget generalizing m p with
  | zero => rfl
  | succ budget ih =>
      have hstep := step_reprint m p
      rw [run, runLines]
      cases hrun : step m with
      | error e m' =>
          rw [hrun] at hstep
          rw [bind_of_error hrun, bind_of_error hstep, List.append_nil]
          rfl
      | ok status m' =>
          rw [hrun] at hstep
          rw [bind_of_ok hrun, bind_of_ok hstep]
          cases status with
          | halted =>
              rw [List.append_nil]
              rfl
          | running =>
              rw [Printout.writeLines_append]
              exact ih m' _

end Machine

end Lox
