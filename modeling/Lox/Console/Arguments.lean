import Lox.Session

/-!
# Command line arguments

The arguments are read from left to right. An option that takes a value finds it attached
(`--eval=CODE`, `-eCODE`, `-e=CODE`) or in the next argument, which must not look like an
option itself. A value found in the next argument counts only once the argument after it
has been recognised, or the arguments have ended; so of two mistakes an unknown argument is
reported before a bad value that precedes it.

## Main definitions

* `Arguments`, `UsageError`.
* `Arguments.parse` — reads the arguments.
* `Arguments.settings` — the machine they ask for.
-/

namespace Lox.Console

/-- What the command line asks for. -/
structure Arguments where
  /-- The script to run. -/
  file : Option String := none
  /-- The source to run. -/
  eval : Option String := none
  /-- Whether to converse. -/
  repl : Bool := false
  /-- Whether to collect at every allocation. -/
  gcStress : Bool := false
  /-- The byte total beyond which the first collection runs. -/
  gcThreshold : Option Nat := none
  /-- How many values the stack may hold. -/
  stackMax : Option Nat := none
  deriving DecidableEq, Repr

/-- Why the arguments are not followed. -/
inductive UsageError where
  /-- An argument that is no option, or an unknown one. -/
  | unknownArgument
  /-- An option without the value it needs. -/
  | missingValue
  /-- A number that is none. -/
  | badNumber
  /-- An option given twice. -/
  | repeated
  /-- A value given to an option that takes none. -/
  | unwantedValue
  /-- The user asks for help. -/
  | helpWanted
  /-- The user asks for the version. -/
  | versionWanted
  deriving DecidableEq, Repr

/-- The options that take a value. -/
inductive ValueOption where
  | file | eval | gcThreshold | stackMax
  deriving DecidableEq, Repr

/-- The options that take none. -/
inductive FlagOption where
  | repl | gcStress | help | version
  deriving DecidableEq, Repr

/-- An option of either sort. -/
inductive CommandOption where
  | value (o : ValueOption)
  | flag (o : FlagOption)
  deriving DecidableEq, Repr

/-- The option with a long name. -/
def CommandOption.ofLong? : String → Option CommandOption
  | "file" => some (.value .file)
  | "eval" => some (.value .eval)
  | "gc-threshold" => some (.value .gcThreshold)
  | "stack-max" => some (.value .stackMax)
  | "repl" => some (.flag .repl)
  | "gc-stress" => some (.flag .gcStress)
  | "help" => some (.flag .help)
  | "version" => some (.flag .version)
  | _ => none

/-- The option with a one-letter name. -/
def CommandOption.ofShort? : Char → Option CommandOption
  | 'f' => some (.value .file)
  | 'e' => some (.value .eval)
  | 'r' => some (.flag .repl)
  | 'h' => some (.flag .help)
  | 'V' => some (.flag .version)
  | _ => none

/-- A number that fits in a machine word: decimal digits after an optional plus sign. -/
def readCount? (text : String) : Option Nat :=
  let digits := match text.toList with
    | '+' :: rest => rest
    | cs => cs
  if digits.isEmpty || !digits.all Char.isDigit then none
  else
    let n := Number.wholeValue digits
    if n ≤ maxWord then some n else none

/-- Where reading stands: what has been read, and an option whose value may still come. -/
structure Reading where
  /-- What has been read. -/
  arguments : Arguments := {}
  /-- The option that waits for its value, or whose value has just come. -/
  waiting : Option (ValueOption × Option String) := none

namespace Reading

/-- Sets a text that has not been set. -/
def setText (old : Option String) (text : String) : Except UsageError (Option String) :=
  if old.isSome then .error .repeated else .ok (some text)

/-- Sets a number that has not been set. -/
def setCount (old : Option Nat) (text : String) : Except UsageError (Option Nat) :=
  if old.isSome then .error .repeated
  else
    match readCount? text with
    | some n => .ok (some n)
    | none => .error .badNumber

/-- Sets an option to a value. -/
def setValue (a : Arguments) (o : ValueOption) (text : String) :
    Except UsageError Arguments := do
  match o with
  | .file => return { a with file := ← setText a.file text }
  | .eval => return { a with eval := ← setText a.eval text }
  | .gcThreshold => return { a with gcThreshold := ← setCount a.gcThreshold text }
  | .stackMax => return { a with stackMax := ← setCount a.stackMax text }

/-- Sets a flag. -/
def setFlag (a : Arguments) : FlagOption → Except UsageError Arguments
  | .repl => if a.repl then .error .repeated else .ok { a with repl := true }
  | .gcStress => if a.gcStress then .error .repeated else .ok { a with gcStress := true }
  | .help => .error .helpWanted
  | .version => .error .versionWanted

/-- Settles the option that waits. -/
def settle (r : Reading) : Except UsageError Arguments :=
  match r.waiting with
  | none => .ok r.arguments
  | some (_, none) => .error .missingValue
  | some (o, some text) => setValue r.arguments o text

/-- Reads an option that takes a value, with the value attached to it if there is one. -/
def takeValue (r : Reading) (o : ValueOption) (attached : Option String) :
    Except UsageError Reading := do
  let a ← r.settle
  match attached with
  | some text => return { arguments := ← setValue a o text }
  | none => return { arguments := a, waiting := some (o, none) }

/-- Reads a flag. -/
def takeFlag (r : Reading) (o : FlagOption) : Except UsageError Reading := do
  return { arguments := ← setFlag (← r.settle) o }

/-- The name and the attached value of a long option. -/
def splitLong (cs : List Char) : List Char × Option (List Char) :=
  match cs.dropWhile (· ≠ '=') with
  | [] => (cs, none)
  | _ :: value => (cs.takeWhile (· ≠ '='), some value)

/-- Reads a long option, without its two hyphens. -/
def takeLong (r : Reading) (cs : List Char) : Except UsageError Reading :=
  let (name, attached) := splitLong cs
  match CommandOption.ofLong? (String.ofList name), attached with
  | none, _ => .error .unknownArgument
  | some (.value o), attached => r.takeValue o (attached.map String.ofList)
  | some (.flag o), none => r.takeFlag o
  | some (.flag _), some _ => .error .unwantedValue

/-- The value attached to a one-letter option: what follows it, less one equals sign. -/
def attachedValue : List Char → Option String
  | [] => none
  | '=' :: rest => some (String.ofList rest)
  | rest => some (String.ofList rest)

/-- Reads a cluster of one-letter options, without its hyphen. -/
def takeShort (r : Reading) : List Char → Except UsageError Reading
  | [] => .ok r
  | c :: rest =>
    match CommandOption.ofShort? c with
    | none => .error .unknownArgument
    | some (.value o) => r.takeValue o (attachedValue rest)
    | some (.flag o) => do takeShort (← r.takeFlag o) rest

/-- Reads an argument that does not look like an option: it can only be a value. -/
def takePlain (r : Reading) (text : String) : Except UsageError Reading :=
  match r.waiting with
  | some (o, none) => .ok { r with waiting := some (o, some text) }
  | _ => .error .unknownArgument

/-- Reads all arguments. After two hyphens alone every argument would be a plain one, and
there is none to be had. -/
def takeAll (r : Reading) : List String → Except UsageError Arguments
  | [] => r.settle
  | argument :: others =>
    match argument.toList with
    | ['-', '-'] => if others.isEmpty then r.settle else .error .unknownArgument
    | '-' :: '-' :: cs => do takeAll (← r.takeLong cs) others
    | '-' :: c :: cs => do takeAll (← r.takeShort (c :: cs)) others
    | _ => do takeAll (← r.takePlain argument) others

end Reading

namespace Arguments

/-- Reads the arguments of a command line. -/
def parse (arguments : List String) : Except UsageError Arguments :=
  Reading.takeAll {} arguments

/-- The settings that the arguments ask for. -/
def settings (a : Arguments) : Settings :=
  let usual : Settings := {}
  { usual with
    stackMax := a.stackMax.getD usual.stackMax
    policy := { usual.policy with
      stress := a.gcStress
      threshold := a.gcThreshold.getD usual.policy.threshold } }

end Arguments

end Lox.Console
