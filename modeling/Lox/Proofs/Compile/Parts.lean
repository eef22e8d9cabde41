import Lox.Compile.Statement

/-!
# Parts of steps

Some steps of the compiler do several things at once. What they do about functions, names, arguments
and parameters is told apart here.

## Main definitions

* `allocateFunction`, `lookUp` — the part of a step that uses the heap or the functions around.
* `countArgument`, `emitCall`, `countParameter` — the parts of steps that count.
-/

namespace Lox.Compiler

/-- The function of a draft, allocated. -/
def allocateFunction : CompileM Handle := fun c =>
  match Heap.allocate (.function c.draft.finish) (roots c.held c.draft c.enclosing) c.heap with
  | .ok h heap => .ok h { c with heap }
  | .error fault heap => .error fault { c with heap }

/-- A function ends with a return, and then it is allocated. -/
theorem finishFunction_eq : finishFunction = (do emitReturn; allocateFunction) := rfl

/-- Looks a name up in the functions around, which may make them capture a variable. -/
def lookUp (name : String) : CompileM Draft.Lookup := fun c =>
  let found := c.draft.capture? name c.enclosing
  .ok found { c with draft := found.draft, enclosing := found.enclosing }

/-- What is wrong with a name is reported when it has been looked up. -/
theorem resolveCapture_eq (name : String) : resolveCapture name = (do
    let found ← lookUp name
    found.issues.forM complain
    return found.index) := rfl

/-- Counts an argument that has been compiled. -/
def countArgument (count : Nat) : CompileM Unit := do
  if count = Draft.maxArity then complain .tooManyArguments

/-- The instruction that calls with so many arguments. -/
def emitCall (count : Nat) : CompileM Unit :=
  emitWith .call (UInt8.ofNat (min count Draft.maxArity))

/-- Counts a parameter, ahead of its name. -/
def countParameter : CompileM Unit := do
  if (← get).draft.arity = Draft.maxArity then complainAhead .tooManyParameters
  else modifyDraft fun d => { d with arity := d.arity + 1 }

theorem arguments_succ (expression : CompileM Unit) (steps count : Nat) :
    arguments expression (steps + 1) count = (do
      expression
      countArgument count
      if ← accept .comma then arguments expression steps (count + 1)
      else return count + 1) := by
  rw [arguments, countArgument]
  split <;> rfl

theorem parameters_succ (steps : Nat) : parameters (steps + 1) = (do
    countParameter
    defineVariable (← variableName .parameterName)
    if ← accept .comma then parameters steps) := by
  rw [parameters, countParameter, bind_assoc]
  refine bind_congr fun c => ?_
  split <;> rfl

end Lox.Compiler
