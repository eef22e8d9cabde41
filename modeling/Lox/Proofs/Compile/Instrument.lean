import Lox.Proofs.Compile.Parts

/-!
# The compiler with an instrument

To tell what happens inside of a compilation, the compiler is given an instrument, which checks what
the compiler relies on or writes down what it does. Such a compiler has a monad of its own, and it
differs from the compiler in a few steps only, the fields of `Instrument`. Everything else is put
together here, once for all instruments, as the compiler puts it together.

## Main definitions

* `Instrument` — the steps in which a compiler with an instrument may differ.
* `Instrument.bare` — the steps of the compiler itself.
* `Instrument.expressionAt`, `Instrument.statementAt`, `Instrument.declarationAt` — any expression,
  statement and declaration.
* `Instrument.program` — a whole program.
-/

namespace Lox.Compiler

/-- The steps in which a compiler with an instrument may differ. -/
structure Instrument (m : Type → Type) where
  emitJump (op : OpCode) : m Nat
  patchJump (operand : Nat) : m Unit
  emitLoop (target : Nat) : m Unit
  makeConstant (value : Value) : m UInt8
  addLocal (name : String) : m Unit
  resolve (name : String) : m Reference
  closeScope : m Unit
  countArgument (count : Nat) : m Unit
  emitCall (count : Nat) : m Unit
  countParameter : m Unit
  enterFunction (name : Handle) : m Unit
  finishFunction : m Handle
  leaveFunction : m Unit
  /-- What is done around a declaration. -/
  around (declaration : m Unit) : m Unit

namespace Instrument

variable {m : Type → Type} [Monad m] [MonadLiftT CompileM m]

/-- The steps of the compiler itself. -/
def bare : Instrument m where
  emitJump op := Compiler.emitJump op
  patchJump operand := Compiler.patchJump operand
  emitLoop target := Compiler.emitLoop target
  makeConstant value := Compiler.makeConstant value
  addLocal name := Compiler.addLocal name
  resolve name := Compiler.resolve name
  closeScope := Compiler.closeScope
  countArgument count := Compiler.countArgument count
  emitCall count := Compiler.emitCall count
  countParameter := Compiler.countParameter
  enterFunction name := Compiler.enterFunction name
  finishFunction := Compiler.finishFunction
  leaveFunction := Compiler.leaveFunction
  around declaration := declaration

/-- The state of the compiler. -/
def look : m Compiler := liftM (get : CompileM Compiler)

/-- A step that fails. -/
def fail {α : Type} (fault : Fault) : m α := liftM (throw fault : CompileM α)

variable (on : Instrument m)

/-! ### Constants and variables -/

@[inherit_doc Compiler.emitConstant]
def emitConstant (value : Value) : m Unit := do
  emitWith .constant (← on.makeConstant value)

@[inherit_doc Compiler.nameConstant]
def nameConstant (name : String) : m UInt8 := do
  on.makeConstant (.object (← intern name))

@[inherit_doc Compiler.declareVariable]
def declareVariable : m Unit := do
  if ← inScope then
    let c ← look
    let name := c.previous.lexeme
    if c.draft.declares name then complain .duplicateLocal
    on.addLocal name

@[inherit_doc Compiler.variableName]
def variableName (what : Expectation) : m UInt8 := do
  expect .identifier what
  on.declareVariable
  if ← inScope then return 0
  on.nameConstant (← look).previous.lexeme

/-! ### Expressions -/

@[inherit_doc Compiler.variableOperand]
def variableOperand (expression : m Unit) (mayAssign : Bool) : m Unit := do
  let target ← on.resolve (← look).previous.lexeme
  if mayAssign && (← check .equal) then
    advance
    expression
    emitWith target.write.1 target.write.2
  else emitWith target.read.1 target.read.2

@[inherit_doc Compiler.numberOperand]
def numberOperand : m Unit := do
  match Number.read? (← look).previous.lexeme with
  | some x => on.emitConstant (.number x)
  | none => complain .invalidNumber

@[inherit_doc Compiler.stringOperand]
def stringOperand : m Unit := do
  match unquote? (← look).previous.lexeme with
  | some text => on.emitConstant (.object (← intern text))
  | none => fail .outOfRange

@[inherit_doc Compiler.operand]
def operand (parse : Precedence → m Unit) (mayAssign : Bool) : OperandForm → m Unit
  | .grouping => do
    parse .assignment
    expect .rightParen .parenAfterExpression
  | .negation => do
    let kind := (← look).previous.kind
    parse .unary
    ((unaryCode kind).forM emit : CompileM Unit)
  | .variable => on.variableOperand (parse .assignment) mayAssign
  | .string => on.stringOperand
  | .number => on.numberOperand
  | .literal => do ((literalCode (← look).previous.kind).forM emit : CompileM Unit)

@[inherit_doc Compiler.arguments]
def arguments (expression : m Unit) : (steps count : Nat) → m Nat
  | 0, _ => fail .exhausted
  | steps + 1, count => do
    expression
    on.countArgument count
    if ← accept .comma then arguments expression steps (count + 1)
    else return count + 1

@[inherit_doc Compiler.callOperator]
def callOperator (expression : m Unit) (steps : Nat) : m Unit := do
  let count ← if ← check .rightParen then pure 0 else on.arguments expression steps 0
  expect .rightParen .parenAfterArguments
  on.emitCall count

@[inherit_doc Compiler.andOperator]
def andOperator (parse : Precedence → m Unit) : m Unit := do
  let toEnd ← on.emitJump .jumpIfFalse
  emit .pop
  parse .and
  on.patchJump toEnd

@[inherit_doc Compiler.orOperator]
def orOperator (parse : Precedence → m Unit) : m Unit := do
  let toRight ← on.emitJump .jumpIfFalse
  let toEnd ← on.emitJump .jump
  on.patchJump toRight
  emit .pop
  parse .or
  on.patchJump toEnd

@[inherit_doc Compiler.operator]
def operator (parse : Precedence → m Unit) (steps : Nat) : OperatorForm → m Unit
  | .call => on.callOperator (parse .assignment) steps
  | .binary => do
    let kind := (← look).previous.kind
    parse (Precedence.ofToken kind).tighter
    ((binaryCode kind).forM emit : CompileM Unit)
  | .and => on.andOperator parse
  | .or => on.orOperator parse

@[inherit_doc Compiler.operators]
def operators (parse : Precedence → m Unit) (least : Precedence) : (steps : Nat) → m Unit
  | 0 => fail .exhausted
  | steps + 1 => do
    if least.rank ≤ (Precedence.ofToken (← look).current.kind).rank then
      advance
      match OperatorForm.ofToken? (← look).previous.kind with
      | some form => on.operator parse (steps + 1) form
      | none => pure ()
      operators parse least steps

@[inherit_doc Compiler.expressionWith]
def expressionWith (parse : Precedence → m Unit) (steps : Nat) (least : Precedence) :
    m Unit := do
  advance
  match OperandForm.ofToken? (← look).previous.kind with
  | none => complain (.expected .expression)
  | some form =>
    let mayAssign := least.rank ≤ Precedence.assignment.rank
    on.operand parse mayAssign form
    on.operators parse least steps
    if mayAssign && (← check .equal) then
      advance
      complain .invalidAssignmentTarget

@[inherit_doc Compiler.expressionAt]
def expressionAt : (steps : Nat) → Precedence → m Unit
  | 0, _ => fail .exhausted
  | steps + 1, least => on.expressionWith (expressionAt steps) (steps + 1) least

@[inherit_doc Compiler.expression]
def expression (steps : Nat) : m Unit := on.expressionAt steps .assignment

/-! ### Statements -/

@[inherit_doc Compiler.printStatement]
def printStatement (expression : m Unit) : m Unit := do
  expression
  expect .semicolon .semicolonAfterValue
  emit .print

@[inherit_doc Compiler.expressionStatement]
def expressionStatement (expression : m Unit) : m Unit := do
  expression
  expect .semicolon .semicolonAfterExpression
  emit .pop

@[inherit_doc Compiler.returnStatement]
def returnStatement (expression : m Unit) : m Unit := do
  if (← look).draft.isScript then complain .returnFromScript
  if ← accept .semicolon then emitReturn
  else
    expression
    expect .semicolon .semicolonAfterReturnValue
    emit .giveBack

@[inherit_doc Compiler.varDeclaration]
def varDeclaration (expression : m Unit) : m Unit := do
  let global ← on.variableName .variableName
  if ← accept .equal then expression else emit .pushNil
  expect .semicolon .semicolonAfterVariable
  defineVariable global

@[inherit_doc Compiler.ifStatement]
def ifStatement (expression statement : m Unit) : m Unit := do
  expect .leftParen .parenAfterIf
  expression
  expect .rightParen .parenAfterCondition
  let toElse ← on.emitJump .jumpIfFalse
  emit .pop
  statement
  let toEnd ← on.emitJump .jump
  on.patchJump toElse
  emit .pop
  if ← accept .elseWord then statement
  on.patchJump toEnd

@[inherit_doc Compiler.whileStatement]
def whileStatement (expression statement : m Unit) : m Unit := do
  let start ← codeSize
  expect .leftParen .parenAfterWhile
  expression
  expect .rightParen .parenAfterCondition
  let toEnd ← on.emitJump .jumpIfFalse
  emit .pop
  statement
  on.emitLoop start
  on.patchJump toEnd
  emit .pop

@[inherit_doc Compiler.forInitializer]
def forInitializer (expression : m Unit) : m Unit := do
  if ← accept .semicolon then return ()
  else if ← accept .varWord then on.varDeclaration expression
  else expressionStatement expression

@[inherit_doc Compiler.forCondition]
def forCondition (expression : m Unit) : m (Option Nat) := do
  if ← accept .semicolon then return none
  else
    expression
    expect .semicolon .semicolonAfterLoopCondition
    let toEnd ← on.emitJump .jumpIfFalse
    emit .pop
    return some toEnd

@[inherit_doc Compiler.forIncrement]
def forIncrement (expression : m Unit) (start : Nat) : m Nat := do
  if ← accept .rightParen then return start
  else
    let toBody ← on.emitJump .jump
    let increment ← codeSize
    expression
    emit .pop
    expect .rightParen .parenAfterForClauses
    on.emitLoop start
    on.patchJump toBody
    return increment

@[inherit_doc Compiler.forStatement]
def forStatement (expression statement : m Unit) : m Unit := do
  openScope
  expect .leftParen .parenAfterFor
  on.forInitializer expression
  let start ← codeSize
  let toEnd ← on.forCondition expression
  let start ← on.forIncrement expression start
  statement
  on.emitLoop start
  match toEnd with
  | none => pure ()
  | some toEnd =>
    on.patchJump toEnd
    emit .pop
  on.closeScope

@[inherit_doc Compiler.declarations]
def declarations (declaration : m Unit) : (steps : Nat) → m Unit
  | 0 => fail .exhausted
  | steps + 1 => do
    if (← check .rightBrace) || (← check .endOfInput) then return ()
    declaration
    declarations declaration steps

@[inherit_doc Compiler.block]
def block (declaration : m Unit) (steps : Nat) : m Unit := do
  declarations declaration steps
  expect .rightBrace .braceAfterBlock

@[inherit_doc Compiler.parameters]
def parameters : (steps : Nat) → m Unit
  | 0 => fail .exhausted
  | steps + 1 => do
    on.countParameter
    defineVariable (← on.variableName .parameterName)
    if ← accept .comma then parameters steps

@[inherit_doc Compiler.functionBody]
def functionBody (block : m Unit) (steps : Nat) : m Unit := do
  on.enterFunction (← intern (← look).previous.lexeme)
  openScope
  expect .leftParen .parenAfterFunctionName
  if !(← check .rightParen) then on.parameters steps
  expect .rightParen .parenAfterParameters
  expect .leftBrace .braceBeforeBody
  block
  let function ← on.finishFunction
  let captures := (← look).draft.captures
  on.leaveFunction
  emitWith .closure (← on.makeConstant (.object function))
  (captures.toList.forM fun capture => do
    emitByte (if capture.isLocal then 1 else 0)
    emitByte capture.index : CompileM Unit)

@[inherit_doc Compiler.funDeclaration]
def funDeclaration (block : m Unit) (steps : Nat) : m Unit := do
  let global ← on.variableName .functionName
  markInitialized
  on.functionBody block steps
  defineVariable global

@[inherit_doc Compiler.statementWith]
def statementWith (expression block statement : m Unit) : m Unit := do
  if ← accept .printWord then printStatement expression
  else if ← accept .ifWord then on.ifStatement expression statement
  else if ← accept .returnWord then returnStatement expression
  else if ← accept .whileWord then on.whileStatement expression statement
  else if ← accept .forWord then on.forStatement expression statement
  else if ← accept .leftBrace then
    openScope
    block
    on.closeScope
  else expressionStatement expression

@[inherit_doc Compiler.declarationWith]
def declarationWith (expression block statement : m Unit) (steps : Nat) : m Unit := on.around do
  if ← accept .funWord then on.funDeclaration block steps
  else if ← accept .varWord then on.varDeclaration expression
  else statement
  if (← look).panicking then synchronize

mutual

@[inherit_doc Compiler.statementAt]
def statementAt : (steps : Nat) → m Unit
  | 0 => fail .exhausted
  | steps + 1 =>
    on.statementWith (on.expression (steps + 1)) (block (declarationAt steps) (steps + 1))
      (statementAt steps)

@[inherit_doc Compiler.declarationAt]
def declarationAt : (steps : Nat) → m Unit
  | 0 => fail .exhausted
  | steps + 1 =>
    let expression := on.expression (steps + 1)
    let block := block (declarationAt steps) (steps + 1)
    on.declarationWith expression block (on.statementWith expression block (statementAt steps))
      (steps + 1)

end

@[inherit_doc Compiler.programDeclarations]
def programDeclarations (declaration : m Unit) : (steps : Nat) → m Unit
  | 0 => fail .exhausted
  | steps + 1 => do
    if ← accept .endOfInput then return ()
    declaration
    programDeclarations declaration steps

@[inherit_doc Compiler.program]
def program (steps : Nat) : m Handle := do
  advance
  programDeclarations (on.declarationAt steps) steps
  on.finishFunction

end Instrument

end Lox.Compiler
