import Lox.Console.Arguments
import Lox.Console.Dialogue
import Lox.Console.Failure

/-!
# Command line runs

What a run from the command line writes and the status with which it exits, as a function of
its arguments, its files and its input. The output of a program always comes before the
report of how it failed.

## Main definitions

* `Task` — what the arguments ask for.
* `Transcript` — what a run writes.
* `converse` — a whole dialogue.
* `runCommand` — a whole run.
-/

namespace Lox.Console

/-- What a run writes to its two streams, and its exit status. -/
structure Transcript where
  /-- The standard output. -/
  out : String := ""
  /-- The standard error stream. -/
  err : String := ""
  /-- The exit status. -/
  status : Nat := 0
  deriving DecidableEq, Repr

/-- One transcript after another. The exit status is that of the last. -/
def Transcript.append (first second : Transcript) : Transcript :=
  { out := first.out ++ second.out, err := first.err ++ second.err, status := second.status }

/-! ### Texts -/

/-- The name and the version of the program. -/
def versionText : String := "lox 0.1.0\n"

/-- What is shown when the arguments ask for nothing. -/
def usageText : String :=
  "Lox 0.1.0\n\nUsage:\n  lox --file <FILE>     Run a Lox script\n" ++
    "  lox --eval <CODE>     Run inline Lox code\n" ++
    "  lox --repl            Start interactive REPL\n\n" ++
    "Run 'lox --help' for more options.\n"

/-- What is shown to a user who asks for help. -/
def helpText : String :=
  "Lox bytecode virtual machine\n\nUsage: lox [OPTIONS]\n\nOptions:\n" ++
    "  -f, --file <FILE>           Script to run\n" ++
    "  -e, --eval <EVAL>           Source to run inline\n" ++
    "  -r, --repl                  Start the interactive REPL\n" ++
    "      --gc-stress             Collect garbage before every allocation\n" ++
    "      --gc-threshold <BYTES>  Allocated bytes that trigger the first collection\n" ++
    "      --stack-max <VALUES>    Value stack capacity\n" ++
    "  -h, --help                  Print help\n" ++
    "  -V, --version               Print version\n"

/-- What is said about arguments that are not followed. -/
def UsageError.text : UsageError → String
  | .unknownArgument => "unexpected argument found"
  | .missingValue => "a value is required but none was supplied"
  | .badNumber => "invalid value for an option"
  | .repeated => "an option cannot be used multiple times"
  | .unwantedValue => "unexpected value for a flag found"
  | .helpWanted => helpText
  | .versionWanted => versionText

/-- The transcript of a run whose arguments are not followed. -/
def Transcript.ofUsageError : UsageError → Transcript
  | .helpWanted => { out := helpText }
  | .versionWanted => { out := versionText }
  | e => { err := "error: " ++ e.text ++ "\n", status := 2 }

/-! ### Tasks -/

/-- What the arguments ask for. -/
inductive Task where
  | runFile (path : String)
  | runSource (source : String)
  | converse
  | showUsage
  deriving DecidableEq, Repr

/-- A file is preferred to a source, and a source to a dialogue. -/
def Arguments.task (a : Arguments) : Task :=
  match a.file, a.eval, a.repl with
  | some path, _, _ => .runFile path
  | none, some source, _ => .runSource source
  | none, none, true => .converse
  | none, none, false => .showUsage

/-- The transcript of a failure. -/
def Transcript.ofFailure (f : Failure) : Transcript :=
  { err := f.message ++ "\n", status := f.exitStatus }

/-- The transcript of a source that was run: what it printed, then how it failed. -/
def concluded (outcome : Outcome) : Session Transcript := do
  let out ← Session.takeOutput
  match Failure.ofOutcome? outcome with
  | none => return { out }
  | some failure => return { Transcript.ofFailure failure with out }

/-- Runs a source and writes its transcript. -/
def runReported (budget : Nat) (source : String) : Session Transcript := do
  concluded (← Session.runSource budget source)

/-- The end of a dialogue whose lines have all been read. -/
def hangUp (broken : Bool) : Session Transcript :=
  if broken then throw .outOfRange else return { out := "\n" }

/-- A dialogue from a given point on. A failure in it does not end it and leaves the exit
status alone; the end of the input ends the line. -/
def converseFrom (budget : Nat) (broken : Bool) (d : Dialogue) :
    (lines : List String) → Session Transcript
  | [] => hangUp broken
  | line :: lines =>
    match d.read line with
    | (_, .leave) => return {}
    | (d, .tell text) => do
      return Transcript.append { out := text } (← converseFrom budget broken d lines)
    | (d, .wait) => converseFrom budget broken d lines
    | (d, .run source) => do
      let transcript ← runReported budget source
      return transcript.append (← converseFrom budget broken d lines)

/-- A whole dialogue. -/
def converse (budget : Nat) (input : PipedInput) : Session Transcript := do
  return Transcript.append { out := banner } (← converseFrom budget input.broken {} input.lines)

/-- Carries out a task. `files` are the files that can be read, and `input` is the standard
input. -/
def perform (budget : Nat) (files : String → Except ReadError String) (input : PipedInput) :
    Task → Session Transcript
  | .runFile path =>
    match files path with
    | .ok source => runReported budget source
    | .error e => return .ofFailure (.unreadable e)
  | .runSource source => runReported budget source
  | .converse => converse budget input
  | .showUsage => return { out := usageText }

/-- A whole run from the command line. -/
def runCommand (budget : Nat) (clock : Nat → Float)
    (files : String → Except ReadError String) (input : PipedInput)
    (arguments : List String) : Except Fault Transcript :=
  match Arguments.parse arguments with
  | .error e => .ok (.ofUsageError e)
  | .ok a =>
    match Session.begin a.settings clock with
    | .error f _ => .error f
    | .ok _ m =>
      match perform budget files input a.task m with
      | .ok transcript _ => .ok transcript
      | .error f _ => .error f

end Lox.Console
