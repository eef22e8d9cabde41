import Lox.Bytecode.OpCode

/-!
# Runtime errors

What can go wrong while a program runs. A runtime error is the *cause* and a trace of the
calls that were active; the wording is a function of the cause.

## Main definitions

* `Cause`, `TraceLine`, `RuntimeError`.
* `RuntimeError.report` — the printed message and trace.
-/

namespace Lox

/-- The sorts of runtime errors. -/
inductive ErrorKind where
  | type | undefinedVariable | arityMismatch | notCallable | stackOverflow | invalidBytecode
  deriving DecidableEq, Repr

/-- Why a program is stopped. -/
inductive Cause where
  /-- An operator of numbers was given something else. -/
  | operandsNotNumbers
  /-- The sign change was given something else than a number. -/
  | operandNotNumber
  /-- An addition was given neither two numbers nor two strings. -/
  | operandsNotAddable
  /-- A global was used before it was defined. -/
  | undefinedVariable (name : String)
  /-- A call passed another count of arguments than the function has parameters. -/
  | arityMismatch (wanted given : Nat)
  /-- A call of something that is no function. -/
  | notCallable
  /-- Too many calls or too many values at once. -/
  | stackOverflow
  /-- The code holds a byte that is no operation. -/
  | unknownOpCode (byte : UInt8)
  /-- The constant that should name a global is no string; its text is given. -/
  | nameExpected (found : String)
  /-- The constant that should be a function is no object. -/
  | functionExpected
  deriving DecidableEq, Repr

namespace Cause

/-- The sort of an error. -/
def kind : Cause → ErrorKind
  | operandsNotNumbers | operandNotNumber | operandsNotAddable => .type
  | undefinedVariable _ => .undefinedVariable
  | arityMismatch _ _ => .arityMismatch
  | notCallable => .notCallable
  | stackOverflow => .stackOverflow
  | unknownOpCode _ | nameExpected _ | functionExpected => .invalidBytecode

/-- The wording of an error. -/
def message : Cause → String
  | operandsNotNumbers => "Operands must be numbers."
  | operandNotNumber => "Operand must be a number."
  | operandsNotAddable => "Operands must be two numbers or two strings."
  | undefinedVariable name => "Undefined variable '" ++ name ++ "'."
  | arityMismatch wanted given =>
    "Expected " ++ toString wanted ++ " arguments but got " ++ toString given ++ "."
  | notCallable => "Can only call functions."
  | stackOverflow => "Stack overflow."
  | unknownOpCode byte => OpCode.unknownMessage byte
  | nameExpected found => "Expected a name constant, found " ++ found ++ "."
  | functionExpected => "Expected a function constant."

end Cause

/-- One active call. -/
structure TraceLine where
  /-- The name of the function; the script has none. -/
  function : Option String
  /-- The line of the instruction being executed. -/
  line : Nat
  deriving DecidableEq, Repr

/-- The printed form of an active call. -/
def TraceLine.text (t : TraceLine) : String :=
  let place := match t.function with
    | none => "script"
    | some name => name ++ "()"
  "[line " ++ toString t.line ++ "] in " ++ place

/-- Why a program was stopped, and where. -/
structure RuntimeError where
  /-- Why. -/
  cause : Cause
  /-- The calls that were active, innermost first. -/
  trace : List TraceLine
  deriving DecidableEq, Repr

namespace RuntimeError

/-- A message followed by the active calls, one on each line. -/
def render (message : String) (trace : List TraceLine) : String :=
  trace.foldl (fun text t => text ++ "\n" ++ t.text) message

/-- The message and the trace. -/
def report (e : RuntimeError) : String := render e.cause.message e.trace

/-- One line that gives the message alone. -/
def summary (message : String) : String := "runtime error: " ++ message

end RuntimeError

end Lox
