import Std.Time.DateTime.Timestamp
import Lox.Console.Transcript

/-!
# The program

The command line program. It reads files and lines, asks the clock, and writes what the
library says; it decides nothing else.
-/

namespace Lox.Console

/-- The host's clock, in seconds since 1970, to the microsecond. -/
def hostClock : IO Float := do
  let now ← Std.Time.Timestamp.now
  let micros := now.toNanosecondsSinceUnixEpoch.val / 1000
  return Float.ofInt micros / 1000000

/-- How many instructions run between two looks at the clock. -/
def slice : Nat := 4096

/-- Gives the machine the present reading of the clock. -/
def withClock (m : Machine) : IO Machine := do
  let reading ← hostClock
  return { m with clock := fun _ => reading }

/-- Says what is wrong inside the machine and gives the exit status for it. -/
def reportFault (f : Fault) : IO UInt32 := do
  IO.eprintln (f.message?.getD "index out of range")
  return 101

/-- Writes a transcript. -/
def write (t : Transcript) : IO Unit := do
  let out ← IO.getStdout
  out.putStr t.out
  out.flush
  IO.eprint t.err

/-- Runs on until a run is not paused any more. -/
partial def finish (outcome : Outcome) (m : Machine) :
    IO (Except Fault (Transcript × Machine)) := do
  match outcome with
  | .paused =>
    match Session.resume slice (← withClock m) with
    | .ok outcome m => finish outcome m
    | .error f _ => return .error f
  | outcome =>
    match concluded outcome m with
    | .ok transcript m => return .ok (transcript, m)
    | .error f _ => return .error f

/-- Runs a source to its end. -/
def runToEnd (source : String) (m : Machine) : IO (Except Fault (Transcript × Machine)) := do
  match Session.runSource slice source (← withClock m) with
  | .ok outcome m => finish outcome m
  | .error f _ => return .error f

/-- Runs a source, writes its transcript and gives the exit status. -/
def runSourceOnce (source : String) (m : Machine) : IO UInt32 := do
  match ← runToEnd source m with
  | .ok (transcript, _) =>
    write transcript
    return transcript.status.toUInt32
  | .error f => reportFault f

/-- The next line of the standard input, if there is one. -/
def readLine : IO PipedInput := do
  let line ← (← IO.getStdin).getLine
  return .ofText line

/-- The words of the system for an error, with its number. -/
def refusal : IO.Error → ReadError
  | .noFileOrDirectory _ _ _ => .missing
  | .permissionDenied _ code details => .refused (details ++ " (os error " ++ toString code ++ ")")
  | .inappropriateType _ code details => .refused (details ++ " (os error " ++ toString code ++ ")")
  | e => .refused (toString e)

/-- The source that a file holds. -/
def readSource (path : String) : IO (Except ReadError String) := do
  try
    let bytes ← IO.FS.readBinFile path
    return sourceOfBytes bytes
  catch e => return .error (refusal e)

/-- A dialogue on the standard streams. -/
partial def dialogue (d : Dialogue) (m : Machine) : IO UInt32 := do
  let input ← readLine
  match input.lines with
  | [] =>
    match hangUp input.broken m with
    | .ok transcript _ =>
      write transcript
      return 0
    | .error f _ => reportFault f
  | line :: _ =>
    match d.read line with
    | (_, .leave) => return 0
    | (d, .tell text) =>
      write { out := text }
      dialogue d m
    | (d, .wait) => dialogue d m
    | (d, .run source) =>
      match ← runToEnd source m with
      | .ok (transcript, m) =>
        write transcript
        dialogue d m
      | .error f => reportFault f

/-- The machine of a program. A new machine has handles without a bound; those of a program take up
32 bits. -/
def onHandles (m : Machine) : Machine :=
  { m with heap := { m.heap with handles := Handle.count } }

/-- Carries out a task and gives the exit status. -/
def carryOut (task : Task) (m : Machine) : IO UInt32 := do
  match task with
  | .runFile path =>
    match ← readSource path with
    | .ok source => runSourceOnce source m
    | .error e =>
      let transcript := Transcript.ofFailure (.unreadable e)
      write transcript
      return transcript.status.toUInt32
  | .runSource source => runSourceOnce source m
  | .converse =>
    write { out := banner }
    dialogue {} m
  | .showUsage =>
    write { out := usageText }
    return 0

end Lox.Console

open Lox Lox.Console in
/-- Reads the arguments and carries out what they ask for. -/
def main (arguments : List String) : IO UInt32 := do
  match Arguments.parse arguments with
  | .error e =>
    let transcript := Transcript.ofUsageError e
    write transcript
    return transcript.status.toUInt32
  | .ok a =>
    match Session.begin a.settings fun _ => 0 with
    | .ok _ m => carryOut a.task (onHandles m)
    | .error f _ => reportFault f
