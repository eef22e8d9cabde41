import Lox.Compile.Compiler

/-!
# Scopes and variables

At the outermost level of the script variables are globals, found by name while the program
runs. Inside a scope they are locals, and the compiler knows the stack slot of each. A local
of an enclosing function is reached through a capture.

## Main definitions

* `openScope`, `closeScope`.
* `declareVariable`, `defineVariable` — the two ends of a declaration.
* `resolve` — what a name refers to.
-/

namespace Lox.Compiler

/-! ### Scopes -/

/-- Opens a scope. -/
def openScope : CompileM Unit := modifyDraft fun d => { d with depth := d.depth + 1 }

/-- The instruction that takes a local off the stack when its scope ends. -/
def discard (l : Local) : OpCode := if l.captured then .closeUpvalue else .pop

/-- Closes a scope: its locals leave the stack, newest first. -/
def closeScope : CompileM Unit := do
  modifyDraft fun d => { d with depth := d.depth - 1 }
  let d := (← get).draft
  (d.locals.takeWhile (Draft.isWithin (d.depth + 1))).forM fun l => emit (discard l)
  modifyDraft fun d => { d with locals := d.locals.dropWhile (Draft.isWithin (d.depth + 1)) }

/-- Whether the draft is inside a scope. -/
def inScope : CompileM Bool := return 0 < (← get).draft.depth

/-! ### Declarations -/

/-- The operand of a constant that holds a name. -/
def nameConstant (name : String) : CompileM UInt8 := do
  makeConstant (.object (← intern name))

/-- Adds a local that cannot be used yet. -/
def addLocal (name : String) : CompileM Unit := do
  if (← get).draft.locals.length = Draft.maxLocals then complain .tooManyLocals
  else modifyDraft fun d => { d with locals := ⟨name, none, false⟩ :: d.locals }

/-- Declares the local named by the token consumed last. Outside all scopes there is nothing
to declare. -/
def declareVariable : CompileM Unit := do
  if ← inScope then
    let c ← get
    let name := c.previous.lexeme
    if c.draft.declares name then complain .duplicateLocal
    addLocal name

/-- Reads the name of a variable and declares it. The operand given back names a global;
it means nothing for a local. -/
def variableName (what : Expectation) : CompileM UInt8 := do
  expect .identifier what
  declareVariable
  if ← inScope then return 0
  nameConstant (← get).previous.lexeme

/-- Lets the newest local be used. -/
def markInitialized : CompileM Unit := do
  if ← inScope then modifyDraft Draft.markNewest

/-- Ends a declaration: the value on top of the stack becomes the local, which is there
already, or the global. -/
def defineVariable (global : UInt8) : CompileM Unit := do
  if ← inScope then markInitialized else emitWith .defineGlobal global

/-! ### References -/

/-- What a name refers to, with the operand of the instructions that reach it. -/
inductive Reference where
  | slot (operand : UInt8)
  | upvalue (operand : UInt8)
  | global (operand : UInt8)
  deriving DecidableEq, Repr

/-- The instruction that reads a variable. -/
def Reference.read : Reference → OpCode × UInt8
  | slot operand => (.getLocal, operand)
  | upvalue operand => (.getUpvalue, operand)
  | global operand => (.getGlobal, operand)

/-- The instruction that assigns a variable. -/
def Reference.write : Reference → OpCode × UInt8
  | slot operand => (.setLocal, operand)
  | upvalue operand => (.setUpvalue, operand)
  | global operand => (.setGlobal, operand)

/-- Looks a name up in the enclosing functions and captures what it finds. -/
def resolveCapture (name : String) : CompileM (Option UInt8) := do
  let c ← get
  let found := c.draft.capture? name c.enclosing
  set { c with draft := found.draft, enclosing := found.enclosing }
  found.issues.forM complain
  return found.index

/-- What a name refers to: a local of this function, else a local of the nearest enclosing
function that has one, else a global. -/
def resolve (name : String) : CompileM Reference := do
  match (← get).draft.local? name with
  | some (slot, l) =>
    (Draft.mentionIssues l).forM complain
    return .slot (UInt8.ofNat slot)
  | none =>
    match ← resolveCapture name with
    | some index => return .upvalue index
    | none => return .global (← nameConstant name)

end Lox.Compiler
