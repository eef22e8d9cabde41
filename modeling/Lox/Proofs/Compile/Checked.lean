import Lox.Proofs.Compile.Instrument

/-!
# The compiler with its assumptions checked

The compiler subtracts offsets, closes scopes, leaves functions and addresses variables without
looking whether it may. Here it looks: wherever a difference could be negative, an index out of its
range or a stack empty, the run faults instead, and so it does when a declaration has taken no
token. The compiler is the same in all other respects, so that to say that the two never differ is
to say that no such thing happens.

## Main definitions

* `Compiler.unread` — how many tokens are still to be taken.
* `Compiler.require` — a check.
* `Compiler.Checked` — the steps of the compiler that check something.
* `Compiler.checker` — the instrument that checks.
* `compileChecked` — a whole program.
-/

namespace Lox

namespace Compiler

/-- How many tokens are still to be taken, the one ahead included. The end of the input is taken
over and over and counts no more once nothing lies behind it. -/
def unread (c : Compiler) : Nat :=
  if c.current.kind = .endOfInput ∧ c.tokens.pending = [] then 0
  else c.tokens.pending.length + 1

/-- Goes on if something holds of the state, and faults otherwise. -/
def require (holds : Compiler → Prop) [DecidablePred holds] : CompileM Unit := do
  if holds (← get) then pure () else throw .outOfRange

namespace Checked

/-! ### Jumps -/

/-- The operand of a jump that has just been written is all that stands behind it. -/
def emitJump (op : OpCode) : CompileM Nat := do
  let operand ← Compiler.emitJump op
  require fun c => operand + 2 = c.draft.chunk.code.size
  return operand

/-- A jump leads forward, and its operand has been written. -/
def patchJump (operand : Nat) : CompileM Unit := do
  require fun c => operand + 2 ≤ c.draft.chunk.code.size
  Compiler.patchJump operand

/-- A loop leads back. -/
def emitLoop (target : Nat) : CompileM Unit := do
  require fun c => target ≤ c.draft.chunk.code.size
  Compiler.emitLoop target

/-! ### Scopes, functions and variables -/

/-- A scope that is closed is open, and the function itself keeps its slot. -/
def closeScope : CompileM Unit := do
  require fun c => 0 < c.draft.depth ∧ c.draft.locals.any fun l => !Draft.isWithin c.draft.depth l
  Compiler.closeScope

/-- A function that is left stands inside another one. -/
def leaveFunction : CompileM Unit := do
  require fun c => c.enclosing ≠ []
  Compiler.leaveFunction

/-- The operand that holds a slot of a function is that slot, and the slot is taken; an operand can
tell all captured variables apart. -/
def Addressable (name : String) (d : Draft) : Prop :=
  ((d.local? name).all fun found =>
    (UInt8.ofNat found.1).toNat = found.1 ∧ found.1 < d.locals.length) ∧
  d.captures.size ≤ Draft.maxCaptures

instance (name : String) : DecidablePred (Addressable name) :=
  fun d => inferInstanceAs (Decidable (_ ∧ d.captures.size ≤ Draft.maxCaptures))

/-- What a name refers to has an address, before and after something was captured for it. -/
def resolve (name : String) : CompileM Reference := do
  require fun c => ∀ d ∈ c.draft :: c.enclosing, Addressable name d
  let target ← Compiler.resolve name
  require fun c => ∀ d ∈ c.draft :: c.enclosing, Addressable name d
  return target

/-! ### Declarations -/

/-- A declaration takes a token, unless it stands at the end of the input. -/
def around (declaration : CompileM Unit) : CompileM Unit := do
  let start ← get
  declaration
  require fun c => start.current.kind = .endOfInput ∨ c.unread < start.unread

end Checked

/-- The instrument that checks. -/
def checker : Instrument CompileM :=
  { Instrument.bare with
    emitJump := Checked.emitJump
    patchJump := Checked.patchJump
    emitLoop := Checked.emitLoop
    closeScope := Checked.closeScope
    leaveFunction := Checked.leaveFunction
    resolve := Checked.resolve
    around := Checked.around }

end Compiler

@[inherit_doc compile]
def compileChecked (tokens : TokenStream) (held : List Handle) :
    HeapM (Except (List Diagnostic) Handle) := fun heap =>
  match Compiler.checker.program (tokens.pending.length + 2) (.start tokens held heap) with
  | .ok script c =>
    .ok (if c.reported.isEmpty then .ok script else .error c.reported.toList) c.heap
  | .error fault c => .error fault c.heap

end Lox
