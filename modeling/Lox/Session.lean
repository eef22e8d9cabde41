import Lox.Compile.Statement
import Lox.Machine.Step
import Lox.Token.Lexer

/-!
# Sessions

A session gives one machine a sequence of sources. Globals live on from one source to the
next, whether or not a source compiles and whether or not it runs to its end.

A run is given a budget of instructions. A run that uses it up is *paused* and can be taken
up again, so that no program is cut short.

## Main definitions

* `Outcome` — how a source ended.
* `Session.runSource`, `Session.interpret` — compile and run a source.
* `Session.bind` — make a host function known.
* `Session.begin` — a new machine.
-/

namespace Lox

/-- How the run of a source ended. -/
inductive Outcome where
  /-- The script ended. -/
  | finished
  /-- The source was rejected. -/
  | rejected (diagnostics : List Diagnostic)
  /-- The script was stopped. -/
  | failed (e : RuntimeError)
  /-- The budget is used up. -/
  | paused

/-- A step of a session. Only a fault ends a session. -/
abbrev Session := EStateM Fault Machine

namespace Session

/-! ### Running -/

/-- Runs an action and sees how it ended. A runtime error ends a source but no session. -/
def attempt (action : Action Status) : Session Outcome := fun m =>
  match action m with
  | .ok .halted m => .ok .finished m
  | .ok .running m => .ok .paused m
  | .error (.raised e) m => .ok (.failed e) m
  | .error (.fault f) m => .error f m

/-- Calls a function as a script. The function stays on the stack while its closure is
allocated, so that a collection keeps it. -/
def callScript (script : Handle) : Action Unit := do
  Machine.push (.object script)
  let closure ← Machine.allocateClosure script
  let _ ← Machine.pop
  Machine.push (.object closure)
  Machine.call closure 0

/-- Runs a function as a script. -/
def runScript (budget : Nat) (script : Handle) : Session Outcome :=
  attempt do
    callScript script
    Machine.run budget

/-- Takes up a run that was paused. -/
def resume (budget : Nat) : Session Outcome := attempt (Machine.run budget)

/-- Compiles a source. -/
def compileSource (source : String) : Session (Except (List Diagnostic) Handle) := fun m =>
  let held := Machine.roots m.stack m.frames m.openCells m.globals
  match compile (.ofSource source) held m.heap with
  | .ok result heap => .ok result { m with heap }
  | .error f heap => .error f { m with heap }

/-- Compiles a source and runs it. -/
def runSource (budget : Nat) (source : String) : Session Outcome := do
  match ← compileSource source with
  | .error diagnostics => return .rejected diagnostics
  | .ok script => runScript budget script

/-! ### Reporting -/

/-- What is reported of an outcome: a line for each diagnostic, or a runtime error with its
trace. -/
def reportText : Outcome → String
  | .rejected diagnostics =>
    diagnostics.foldl (fun text d => text ++ d.text ++ "\n") ""
  | .failed e => e.report ++ "\n"
  | .finished | .paused => ""

/-- Adds the report of an outcome to the diagnostics. -/
def record (outcome : Outcome) : Session Unit :=
  modify fun m => { m with diagnostics := m.diagnostics ++ reportText outcome }

/-- Compiles and runs a source, and reports how it ended. -/
def interpret (budget : Nat) (source : String) : Session Outcome := do
  let outcome ← runSource budget source
  record outcome
  return outcome

/-- Takes what has been printed, and leaves the printout empty. -/
def takeOutput : Session String := do
  let text := (← get).printout.text
  modify fun m => { m with printout := m.printout.taken }
  return text

/-- Takes what has been reported, and leaves nothing. -/
def takeDiagnostics : Session String := do
  let text := (← get).diagnostics
  modify fun m => { m with diagnostics := "" }
  return text

/-! ### Globals and the heap -/

/-- Runs an operation of the heap that is given the machine's roots. -/
def withRoots {α : Type} (operation : List Handle → HeapM α) : Session α := fun m =>
  match operation (Machine.roots m.stack m.frames m.openCells m.globals) m.heap with
  | .ok a heap => .ok a { m with heap }
  | .error f heap => .error f { m with heap }

/-- The value of a global, by its name. -/
def global? (m : Machine) (name : String) : Option Value :=
  match m.heap.findInterned? name (fingerprint name) with
  | some h => m.globals[h]?
  | none => none

/-- Makes a host function known under a name. The name is on the stack while the function is
allocated, so that a collection keeps it; the limit of the stack does not apply. -/
def bind (name : String) (run : HostFunction) : Session Unit := do
  let h ← withRoots (Heap.intern name)
  modify fun m => { m with stack := m.stack.push (.object h) }
  let native ← withRoots (Heap.allocate (.native { name, run }))
  modify fun m =>
    { m with stack := m.stack.pop, globals := m.globals.insert h (.object native) }

/-- Frees everything that the machine does not keep alive. -/
def collect : Session Unit := withRoots Heap.collect

/-! ### New machines -/

/-- The host function that every machine knows: the reading of the clock. -/
def clockFunction : HostFunction := fun reading _ => .number reading

/-- A machine that has nothing yet. -/
def blank (settings : Settings) (clock : Nat → Float) : Machine :=
  { heap := .empty settings.policy
    printout := { capacity := settings.outputCapacity }
    stackMax := settings.stackMax
    clock }

/-- The bytes of one stack slot. -/
def slotBytes : Nat := 16

/-- A new machine. Room for the whole stack is set aside at once. -/
def begin (settings : Settings) (clock : Nat → Float) : EStateM.Result Fault Machine Unit :=
  let m := blank settings clock
  if maxBlock < slotBytes * settings.stackMax then .error .overflow m
  else bind "clock" clockFunction m

end Session

end Lox
