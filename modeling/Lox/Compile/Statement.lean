import Lox.Compile.Expression

/-!
# Statements and programs

The code of a statement leaves the stack as it found it, except that a declaration inside a
scope leaves the new local on top.

As with expressions, each form takes the compilers of its parts as arguments, and
`statementAt` and `declarationAt` tie the knot.

## Main definitions

* `statementAt`, `declarationAt` — any statement, any declaration.
* `Lox.compile` — a whole program.
-/

namespace Lox

namespace Compiler

/-! ### Simple statements -/

/-- An expression whose value is printed. -/
def printStatement (expression : CompileM Unit) : CompileM Unit := do
  expression
  expect .semicolon .semicolonAfterValue
  emit .print

/-- An expression whose value is dropped. -/
def expressionStatement (expression : CompileM Unit) : CompileM Unit := do
  expression
  expect .semicolon .semicolonAfterExpression
  emit .pop

/-- A return from a function, with or without a value. -/
def returnStatement (expression : CompileM Unit) : CompileM Unit := do
  if (← get).draft.isScript then complain .returnFromScript
  if ← accept .semicolon then emitReturn
  else
    expression
    expect .semicolon .semicolonAfterReturnValue
    emit .giveBack

/-- The declaration of a variable, which is `nil` without an initializer. -/
def varDeclaration (expression : CompileM Unit) : CompileM Unit := do
  let global ← variableName .variableName
  if ← accept .equal then expression else emit .pushNil
  expect .semicolon .semicolonAfterVariable
  defineVariable global

/-! ### Control flow -/

/-- A choice. The condition stays on the stack while it is tested, so each branch starts by
dropping it. -/
def ifStatement (expression statement : CompileM Unit) : CompileM Unit := do
  expect .leftParen .parenAfterIf
  expression
  expect .rightParen .parenAfterCondition
  let toElse ← emitJump .jumpIfFalse
  emit .pop
  statement
  let toEnd ← emitJump .jump
  patchJump toElse
  emit .pop
  if ← accept .elseWord then statement
  patchJump toEnd

/-- A loop with its test in front. -/
def whileStatement (expression statement : CompileM Unit) : CompileM Unit := do
  let start ← codeSize
  expect .leftParen .parenAfterWhile
  expression
  expect .rightParen .parenAfterCondition
  let toEnd ← emitJump .jumpIfFalse
  emit .pop
  statement
  emitLoop start
  patchJump toEnd
  emit .pop

/-- What a loop does once before its first test. -/
def forInitializer (expression : CompileM Unit) : CompileM Unit := do
  if ← accept .semicolon then return ()
  else if ← accept .varWord then varDeclaration expression
  else expressionStatement expression

/-- The test of a loop, and the jump out of it. A loop without a test has no such jump. -/
def forCondition (expression : CompileM Unit) : CompileM (Option Nat) := do
  if ← accept .semicolon then return none
  else
    expression
    expect .semicolon .semicolonAfterLoopCondition
    let toEnd ← emitJump .jumpIfFalse
    emit .pop
    return some toEnd

/-- What a loop does after each round. Its code stands before the body, so the body is
reached by a jump over it, and goes back to it: the place given back is where the body has
to go. -/
def forIncrement (expression : CompileM Unit) (start : Nat) : CompileM Nat := do
  if ← accept .rightParen then return start
  else
    let toBody ← emitJump .jump
    let increment ← codeSize
    expression
    emit .pop
    expect .rightParen .parenAfterForClauses
    emitLoop start
    patchJump toBody
    return increment

/-- A loop with three clauses, in a scope of its own. -/
def forStatement (expression statement : CompileM Unit) : CompileM Unit := do
  openScope
  expect .leftParen .parenAfterFor
  forInitializer expression
  let start ← codeSize
  let toEnd ← forCondition expression
  let start ← forIncrement expression start
  statement
  emitLoop start
  match toEnd with
  | none => pure ()
  | some toEnd =>
    patchJump toEnd
    emit .pop
  closeScope

/-! ### Blocks and functions -/

/-- Declarations up to a closing brace or the end of input. -/
def declarations (declaration : CompileM Unit) : (steps : Nat) → CompileM Unit
  | 0 => throw .exhausted
  | steps + 1 => do
    if (← check .rightBrace) || (← check .endOfInput) then return ()
    declaration
    declarations declaration steps

/-- Declarations and the brace that closes them. -/
def block (declaration : CompileM Unit) (steps : Nat) : CompileM Unit := do
  declarations declaration steps
  expect .rightBrace .braceAfterBlock

/-- The parameters of a function, which are its first locals. -/
def parameters : (steps : Nat) → CompileM Unit
  | 0 => throw .exhausted
  | steps + 1 => do
    if (← get).draft.arity = Draft.maxArity then complainAhead .tooManyParameters
    else modifyDraft fun d => { d with arity := d.arity + 1 }
    defineVariable (← variableName .parameterName)
    if ← accept .comma then parameters steps

/-- The parameters and the body of the function named by the token consumed last, and the
instruction that makes a closure of it. -/
def functionBody (block : CompileM Unit) (steps : Nat) : CompileM Unit := do
  enterFunction (← intern (← get).previous.lexeme)
  openScope
  expect .leftParen .parenAfterFunctionName
  if !(← check .rightParen) then parameters steps
  expect .rightParen .parenAfterParameters
  expect .leftBrace .braceBeforeBody
  block
  let function ← finishFunction
  let captures := (← get).draft.captures
  leaveFunction
  emitWith .closure (← makeConstant (.object function))
  captures.toList.forM fun capture => do
    emitByte (if capture.isLocal then 1 else 0)
    emitByte capture.index

/-- The declaration of a function. The name may be used in the body. -/
def funDeclaration (block : CompileM Unit) (steps : Nat) : CompileM Unit := do
  let global ← variableName .functionName
  markInitialized
  functionBody block steps
  defineVariable global

/-! ### Any statement -/

/-- A statement, given compilers for its parts. -/
def statementWith (expression block statement : CompileM Unit) : CompileM Unit := do
  if ← accept .printWord then printStatement expression
  else if ← accept .ifWord then ifStatement expression statement
  else if ← accept .returnWord then returnStatement expression
  else if ← accept .whileWord then whileStatement expression statement
  else if ← accept .forWord then forStatement expression statement
  else if ← accept .leftBrace then
    openScope
    block
    closeScope
  else expressionStatement expression

/-- A declaration, given compilers for its parts. A panic ends with the declaration in which
it began. -/
def declarationWith (expression block statement : CompileM Unit) (steps : Nat) :
    CompileM Unit := do
  if ← accept .funWord then funDeclaration block steps
  else if ← accept .varWord then varDeclaration expression
  else statement
  if (← get).panicking then synchronize

mutual

/-- Any statement. -/
def statementAt : (steps : Nat) → CompileM Unit
  | 0 => throw .exhausted
  | steps + 1 =>
    statementWith (expression (steps + 1)) (block (declarationAt steps) (steps + 1))
      (statementAt steps)

/-- Any declaration. -/
def declarationAt : (steps : Nat) → CompileM Unit
  | 0 => throw .exhausted
  | steps + 1 =>
    let expression := expression (steps + 1)
    let block := block (declarationAt steps) (steps + 1)
    declarationWith expression block (statementWith expression block (statementAt steps))
      (steps + 1)

end

/-! ### Programs -/

/-- Declarations up to the end of input, which is consumed. -/
def programDeclarations (declaration : CompileM Unit) : (steps : Nat) → CompileM Unit
  | 0 => throw .exhausted
  | steps + 1 => do
    if ← accept .endOfInput then return ()
    declaration
    programDeclarations declaration steps

/-- A whole program: its declarations make up the script. -/
def program (steps : Nat) : CompileM Handle := do
  advance
  programDeclarations (declarationAt steps) steps
  finishFunction

end Compiler

/-- Compiles a program into the function of its script, or gives all that is wrong with it.
`held` are the objects that the caller keeps alive. -/
def compile (tokens : TokenStream) (held : List Handle) :
    HeapM (Except (List Diagnostic) Handle) := fun heap =>
  match Compiler.program (tokens.pending.length + 2) (.start tokens held heap) with
  | .ok script c =>
    .ok (if c.reported.isEmpty then .ok script else .error c.reported.toList) c.heap
  | .error fault c => .error fault c.heap

end Lox
