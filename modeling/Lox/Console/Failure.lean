import Lox.Session

/-!
# Failures

How a run from the command line can fail, what is then said, and the exit status.
-/

namespace Lox.Console

/-- Why a source file cannot be read. -/
inductive ReadError where
  /-- There is no such file. -/
  | missing
  /-- The file is not UTF-8. -/
  | notText
  /-- The system refuses, in its own words. -/
  | refused (reason : String)
  deriving DecidableEq, Repr

/-- The wording of a read error. -/
def ReadError.text : ReadError → String
  | .missing => "No such file or directory (os error 2)"
  | .notText => "stream did not contain valid UTF-8"
  | .refused reason => reason

/-- How a run can fail. -/
inductive Failure where
  | unreadable (e : ReadError)
  | rejected (diagnostics : List Diagnostic)
  | failed (e : RuntimeError)

namespace Failure

/-- What is said about a failure. -/
def message : Failure → String
  | unreadable e => "Could not read file: " ++ e.text
  | rejected diagnostics => "\n".intercalate (diagnostics.map Diagnostic.text)
  | failed e => e.report

/-- The exit status of a failure. -/
def exitStatus : Failure → Nat
  | rejected _ => 65
  | failed _ => 70
  | unreadable _ => 74

/-- The failure that an outcome is, if it is one. -/
def ofOutcome? : Outcome → Option Failure
  | .rejected diagnostics => some (.rejected diagnostics)
  | .failed e => some (.failed e)
  | .finished | .paused => none

end Failure

/-- The source that a file holds. -/
def sourceOfBytes (bytes : ByteArray) : Except ReadError String :=
  match String.fromUTF8? bytes with
  | some source => .ok source
  | none => .error .notText

end Lox.Console
