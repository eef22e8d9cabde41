import Lox.Compile.Scope

/-!
# Expressions

Expressions are compiled by precedence climbing. An expression starts with an operand, and
then takes operators for as long as they bind at least as tightly as asked for. The code of
an expression leaves its value on top of the stack.

The functions that compile one form of expression take the compiler of its parts as an
argument; `expressionAt` ties the knot, with a budget of steps that every part lowers.

## Main definitions

* `Precedence`, `precedence` — how tightly operators bind.
* `operand`, `operator` — the code of one form.
* `expressionAt` — any expression.
-/

namespace Lox

/-- How tightly an operator binds, from the loosest on. -/
inductive Precedence where
  | none | assignment | or | and | equality | comparison | term | factor | unary | call
  | primary
  deriving DecidableEq, Repr

namespace Precedence

/-- The place of a precedence in the order. -/
def rank (p : Precedence) : Nat := p.ctorIdx

/-- The next tighter precedence. -/
def tighter : Precedence → Precedence
  | none => assignment
  | assignment => or
  | or => and
  | and => equality
  | equality => comparison
  | comparison => term
  | term => factor
  | factor => unary
  | unary => call
  | call => primary
  | primary => primary

/-- How tightly the operator that a token stands for binds. A token that is no operator does
not bind at all. -/
def ofToken : TokenKind → Precedence
  | .leftParen => call
  | .minus | .plus => term
  | .slash | .star => factor
  | .bangEqual | .equalEqual => equality
  | .greater | .greaterEqual | .less | .lessEqual => comparison
  | .andWord => and
  | .orWord => or
  | _ => none

end Precedence

/-- The forms with which an expression can start. -/
inductive OperandForm where
  | grouping | negation | variable | string | number | literal
  deriving DecidableEq, Repr

/-- The form that starts with a token. -/
def OperandForm.ofToken? : TokenKind → Option OperandForm
  | .leftParen => some .grouping
  | .minus | .bang => some .negation
  | .identifier => some .variable
  | .string => some .string
  | .number => some .number
  | .falseWord | .trueWord | .nilWord => some .literal
  | _ => none

/-- The forms with which an expression can go on. -/
inductive OperatorForm where
  | call | binary | and | or
  deriving DecidableEq, Repr

/-- The form that goes on with a token. -/
def OperatorForm.ofToken? : TokenKind → Option OperatorForm
  | .leftParen => some .call
  | .minus | .plus | .slash | .star | .bangEqual | .equalEqual
  | .greater | .greaterEqual | .less | .lessEqual => some .binary
  | .andWord => some .and
  | .orWord => some .or
  | _ => none

namespace Compiler

/-! ### Operands -/

/-- The code of an operator before its operand. -/
def unaryCode : TokenKind → List OpCode
  | .bang => [.not]
  | .minus => [.negate]
  | _ => []

/-- The code of an operator between its operands. What is not an operation of the machine is
put together from two: `a >= b` is `!(a < b)`, and `a <= b` is `!(a > b)`. -/
def binaryCode : TokenKind → List OpCode
  | .bangEqual => [.equal, .not]
  | .equalEqual => [.equal]
  | .greater => [.greater]
  | .greaterEqual => [.less, .not]
  | .less => [.less]
  | .lessEqual => [.greater, .not]
  | .plus => [.add]
  | .minus => [.subtract]
  | .star => [.multiply]
  | .slash => [.divide]
  | _ => []

/-- The code of a word that is a value. -/
def literalCode : TokenKind → List OpCode
  | .falseWord => [.pushFalse]
  | .trueWord => [.pushTrue]
  | .nilWord => [.pushNil]
  | _ => []

/-- The text between the quotes of a string token. The first and the last byte are cut off,
which must not split a character. -/
def unquote? (lexeme : String) : Option String :=
  match lexeme.toList with
  | first :: second :: others =>
    let last := (second :: others).getLast (by simp)
    if first.utf8Size = 1 ∧ last.utf8Size = 1 then
      some (String.ofList (second :: others).dropLast)
    else none
  | _ => none

/-- A variable, or an assignment to it where one may stand. -/
def variableOperand (expression : CompileM Unit) (mayAssign : Bool) : CompileM Unit := do
  let target ← resolve (← get).previous.lexeme
  if mayAssign && (← check .equal) then
    advance
    expression
    emitWith target.write.1 target.write.2
  else emitWith target.read.1 target.read.2

/-- A number. -/
def numberOperand : CompileM Unit := do
  match Number.read? (← get).previous.lexeme with
  | some x => emitConstant (.number x)
  | none => complain .invalidNumber

/-- A string. -/
def stringOperand : CompileM Unit := do
  match unquote? (← get).previous.lexeme with
  | some text => emitConstant (.object (← intern text))
  | none => throw .outOfRange

/-- The operand whose first token has just been consumed. -/
def operand (parse : Precedence → CompileM Unit) (mayAssign : Bool) :
    OperandForm → CompileM Unit
  | .grouping => do
    parse .assignment
    expect .rightParen .parenAfterExpression
  | .negation => do
    let kind := (← get).previous.kind
    parse .unary
    (unaryCode kind).forM emit
  | .variable => variableOperand (parse .assignment) mayAssign
  | .string => stringOperand
  | .number => numberOperand
  | .literal => do (literalCode (← get).previous.kind).forM emit

/-! ### Operators -/

/-- The arguments of a call after the first `count`, and how many there are in all. -/
def arguments (expression : CompileM Unit) : (steps count : Nat) → CompileM Nat
  | 0, _ => throw .exhausted
  | steps + 1, count => do
    expression
    if count = Draft.maxArity then complain .tooManyArguments
    if ← accept .comma then arguments expression steps (count + 1)
    else return count + 1

/-- A call, whose opening parenthesis has just been consumed. -/
def callOperator (expression : CompileM Unit) (steps : Nat) : CompileM Unit := do
  let count ← if ← check .rightParen then pure 0 else arguments expression steps 0
  expect .rightParen .parenAfterArguments
  emitWith .call (UInt8.ofNat (min count Draft.maxArity))

/-- A conjunction gives its left operand if that is false, and its right one otherwise. -/
def andOperator (parse : Precedence → CompileM Unit) : CompileM Unit := do
  let toEnd ← emitJump .jumpIfFalse
  emit .pop
  parse .and
  patchJump toEnd

/-- A disjunction gives its left operand unless that is false, and its right one
otherwise. -/
def orOperator (parse : Precedence → CompileM Unit) : CompileM Unit := do
  let toRight ← emitJump .jumpIfFalse
  let toEnd ← emitJump .jump
  patchJump toRight
  emit .pop
  parse .or
  patchJump toEnd

/-- The operator whose token has just been consumed. Its left operand has been compiled. -/
def operator (parse : Precedence → CompileM Unit) (steps : Nat) :
    OperatorForm → CompileM Unit
  | .call => callOperator (parse .assignment) steps
  | .binary => do
    let kind := (← get).previous.kind
    parse (Precedence.ofToken kind).tighter
    (binaryCode kind).forM emit
  | .and => andOperator parse
  | .or => orOperator parse

/-- The operators that bind at least as tightly as `least`. -/
def operators (parse : Precedence → CompileM Unit) (least : Precedence) :
    (steps : Nat) → CompileM Unit
  | 0 => throw .exhausted
  | steps + 1 => do
    if least.rank ≤ (Precedence.ofToken (← get).current.kind).rank then
      advance
      match OperatorForm.ofToken? (← get).previous.kind with
      | some form => operator parse (steps + 1) form
      | none => pure ()
      operators parse least steps

/-! ### Any expression -/

/-- An expression whose operators bind at least as tightly as `least`, given a compiler for
its parts. Only an expression that takes every operator may be an assignment. -/
def expressionWith (parse : Precedence → CompileM Unit) (steps : Nat) (least : Precedence) :
    CompileM Unit := do
  advance
  match OperandForm.ofToken? (← get).previous.kind with
  | none => complain (.expected .expression)
  | some form =>
    let mayAssign := least.rank ≤ Precedence.assignment.rank
    operand parse mayAssign form
    operators parse least steps
    if mayAssign && (← check .equal) then
      advance
      complain .invalidAssignmentTarget

/-- An expression whose operators bind at least as tightly as asked for. A part of an
expression starts after a token of the whole, so as many steps as there are tokens are
enough. -/
def expressionAt : (steps : Nat) → Precedence → CompileM Unit
  | 0, _ => throw .exhausted
  | steps + 1, least => expressionWith (expressionAt steps) (steps + 1) least

/-- Any expression. -/
def expression (steps : Nat) : CompileM Unit := expressionAt steps .assignment

end Compiler

end Lox
