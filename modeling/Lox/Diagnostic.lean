import Lox.Token.Basic

/-!
# Diagnostics

What the compiler has to say about a program that it rejects. A diagnostic is the *cause*
of a complaint and its place in the source; the wording is a function of the cause.

## Main definitions

* `Expectation`, `Issue` — the causes.
* `Diagnostic` — a cause at a place.
* `Diagnostic.text` — the printed line.
-/

namespace Lox

/-- What the grammar asks for at a place where something else stands. -/
inductive Expectation where
  | expression | functionName | variableName | parameterName
  | parenAfterFunctionName | parenAfterParameters | braceBeforeBody | braceAfterBlock
  | semicolonAfterVariable | semicolonAfterValue | semicolonAfterExpression
  | semicolonAfterReturnValue | semicolonAfterLoopCondition
  | parenAfterIf | parenAfterWhile | parenAfterFor | parenAfterCondition
  | parenAfterForClauses | parenAfterExpression | parenAfterArguments
  deriving DecidableEq, Repr

/-- The wording of an expectation. -/
def Expectation.text : Expectation → String
  | .expression => "expression"
  | .functionName => "function name"
  | .variableName => "variable name"
  | .parameterName => "parameter name"
  | .parenAfterFunctionName => "'(' after function name"
  | .parenAfterParameters => "')' after parameters"
  | .braceBeforeBody => "'\x7b' before function body"
  | .braceAfterBlock => "'\x7d' after block"
  | .semicolonAfterVariable => "';' after variable declaration"
  | .semicolonAfterValue => "';' after value"
  | .semicolonAfterExpression => "';' after expression"
  | .semicolonAfterReturnValue => "';' after return value"
  | .semicolonAfterLoopCondition => "';' after loop condition"
  | .parenAfterIf => "'(' after 'if'"
  | .parenAfterWhile => "'(' after 'while'"
  | .parenAfterFor => "'(' after 'for'"
  | .parenAfterCondition => "')' after condition"
  | .parenAfterForClauses => "')' after for clauses"
  | .parenAfterExpression => "')' after expression"
  | .parenAfterArguments => "')' after arguments"

/-- Why a program is rejected. -/
inductive Issue where
  /-- The text is no token. -/
  | malformed (complaint : String)
  /-- The grammar asks for something else here. -/
  | expected (what : Expectation)
  /-- The left side of an assignment is no variable. -/
  | invalidAssignmentTarget
  /-- The token of a number is no number. -/
  | invalidNumber
  /-- Two locals of one scope have one name. -/
  | duplicateLocal
  /-- The initializer of a local mentions that local. -/
  | localInOwnInitializer
  /-- The script itself returns. -/
  | returnFromScript
  /-- A function needs more constants than an operand can tell apart. -/
  | tooManyConstants
  /-- A function has more locals alive at once than an operand can tell apart. -/
  | tooManyLocals
  /-- A function captures more variables than an operand can tell apart. -/
  | tooManyCaptures
  /-- A function has more parameters than a call can pass. -/
  | tooManyParameters
  /-- A call passes more arguments than its operand can count. -/
  | tooManyArguments
  /-- A forward jump is too long for its operand. -/
  | jumpTooLong
  /-- A backward jump is too long for its operand. -/
  | loopTooLong
  deriving DecidableEq, Repr

/-- The wording of an issue. -/
def Issue.message : Issue → String
  | .malformed complaint => complaint
  | .expected what => "Expect " ++ what.text ++ "."
  | .invalidAssignmentTarget => "Invalid assignment target."
  | .invalidNumber => "Invalid number literal."
  | .duplicateLocal => "Already a variable with this name in this scope."
  | .localInOwnInitializer => "Can't read local variable in its own initializer."
  | .returnFromScript => "Can't return from top-level code."
  | .tooManyConstants => "Too many constants in one chunk."
  | .tooManyLocals => "Too many local variables in function."
  | .tooManyCaptures => "Too many closure variables in function."
  | .tooManyParameters => "Can't have more than 255 parameters."
  | .tooManyArguments => "Can't have more than 255 arguments."
  | .jumpTooLong => "Too much code to jump over."
  | .loopTooLong => "Loop body too large."

/-- Where on its line a diagnostic points. -/
inductive Place where
  /-- Nowhere in particular: the complaint says it all. -/
  | unnamed
  /-- The end of the input. -/
  | atEnd
  /-- A token, by its text. -/
  | atToken (lexeme : String)
  deriving DecidableEq, Repr

/-- The wording of a place. -/
def Place.text : Place → String
  | .unnamed => ""
  | .atEnd => " at end"
  | .atToken lexeme => " at '" ++ lexeme ++ "'"

/-- The place of a token. A malformed token has no text of its own to name. -/
def Place.ofToken (token : Token) : Place :=
  match token.kind with
  | .endOfInput => .atEnd
  | .malformed => .unnamed
  | _ => .atToken token.lexeme

/-- One complaint about a program. -/
structure Diagnostic where
  /-- The source line. -/
  line : Nat
  /-- Where on the line. -/
  place : Place
  /-- What is wrong. -/
  issue : Issue
  deriving DecidableEq, Repr

namespace Diagnostic

/-- An issue at a token. -/
def atToken (token : Token) (issue : Issue) : Diagnostic :=
  { line := token.line, place := .ofToken token, issue }

/-- The line that is printed for a complaint with the given parts. -/
def render (line : Nat) (location message : String) : String :=
  "[line " ++ toString line ++ "] Error" ++ location ++ ": " ++ message

/-- The printed line of a diagnostic. -/
def text (d : Diagnostic) : String := render d.line d.place.text d.issue.message

/-- One line that only counts the diagnostics of a program. -/
def summary (count : Nat) : String :=
  "compile error (" ++ toString count ++ " diagnostic(s))"

end Diagnostic

end Lox
