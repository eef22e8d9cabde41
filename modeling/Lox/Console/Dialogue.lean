import Lox.Text.Blank
import Lox.Text.Grapheme.Cluster

/-!
# Dialogues

In a dialogue the user gives one line after another. A line is run as soon as the brackets
and strings opened in it are closed; until then it is continued on the next lines. Between
inputs a line that starts with a full stop is a command to the dialogue itself.

## Main definitions

* `isComplete` — whether an input needs no further line.
* `Dialogue`, `Dialogue.read` — what is done about a line.
* `obeyBackspaces?` — a line as it stands after its backspaces.
* `PipedInput` — the lines of an input that comes through a pipe.
-/

namespace Lox.Console

/-! ### Complete inputs -/

/-- What surrounds a character of an input. -/
inductive Surroundings where
  | code | string | comment
  deriving DecidableEq, Repr

/-- How many more brackets an input opens than it closes, outside strings and comments, and
what surrounds its end. -/
def balance : Surroundings → Int → List Char → Int × Surroundings
  | around, depth, [] => (depth, around)
  | .string, depth, c :: rest => balance (if c = '"' then .code else .string) depth rest
  | .comment, depth, c :: rest => balance (if c = '\n' then .code else .comment) depth rest
  | .code, depth, '/' :: '/' :: rest => balance .comment depth ('/' :: rest)
  | .code, depth, c :: rest =>
    if c = '"' then balance .string depth rest
    else if c = '{' || c = '(' then balance .code (depth + 1) rest
    else if c = '}' || c = ')' then balance .code (depth - 1) rest
    else balance .code depth rest
termination_by _ _ text => text.length

/-- Whether an input needs no further line: every bracket and every string is closed. -/
def isComplete (input : String) : Bool :=
  let (depth, around) := balance .code 0 input.toList
  depth ≤ 0 && around ≠ .string

/-! ### Lines -/

/-- What a dialogue remembers from one line to the next. -/
structure Dialogue where
  /-- The lines so far of the input that is being read. -/
  buffer : String := ""
  /-- Whether an input goes on. -/
  goesOn : Bool := false
  deriving DecidableEq, Repr

/-- What is done about a line. -/
inductive Reply where
  /-- The dialogue ends. -/
  | leave
  /-- Something is shown to the user. -/
  | tell (text : String)
  /-- The input goes on. -/
  | wait
  /-- A complete input is run. -/
  | run (source : String)
  deriving DecidableEq, Repr

/-- What is shown when a dialogue starts. -/
def banner : String := "Lox 0.1.0\nType .help for commands, .exit to quit.\n"

/-- What the help command shows. -/
def dialogueHelp : String :=
  "REPL Commands:\n  .help     - Show this help message\n  .clear    - Clear the screen\n" ++
    "  .exit     - Exit the REPL\n"

/-- The control sequence that clears a terminal. -/
def clearScreen : String := "\x1b[2J\x1b[1;1H"

/-- What is done about a command. -/
def Reply.ofCommand (command : String) : Reply :=
  match command with
  | ".exit" => .leave
  | ".help" => .tell dialogueHelp
  | ".clear" => .tell clearScreen
  | _ => .tell ("Unknown command: " ++ command ++ "\nType .help for available commands\n")

namespace Dialogue

/-- The buffer with one more line. A newline stands in front of it if an input goes on. -/
def extend (d : Dialogue) (line : String) : String :=
  (if d.goesOn then d.buffer ++ "\n" else d.buffer) ++ line

/-- What is done about a line. A command is only recognised where an input may start. -/
def read (d : Dialogue) (line : String) : Dialogue × Reply :=
  let command := trimBlank line
  if !d.goesOn && command.startsWith "." then (d, .ofCommand command)
  else
    let input := d.extend line
    if isComplete input then ({}, .run input)
    else ({ buffer := input, goesOn := true }, .wait)

end Dialogue

/-! ### Typed lines

A backspace takes out what was typed before it. -/

/-- A line while it is being typed. -/
structure TypedLine where
  /-- What has been typed and not taken out, newest character first. -/
  text : List Char := []
  /-- How many bytes the next backspaces take out, the next one first. -/
  sizes : List Nat := []

namespace TypedLine

/-- Takes bytes off the end of a text that is given newest character first, if this splits
no character. -/
def dropBytes? : Nat → List Char → Option (List Char)
  | 0, text => some text
  | _ + 1, [] => none
  | count + 1, c :: text =>
    if c.utf8Size ≤ count + 1 then dropBytes? (count + 1 - c.utf8Size) text else none

/-- How many bytes a backspace takes out for a grapheme cluster. The size of a cluster is kept
in one byte, so of a cluster of 256 bytes or more it is kept modulo 256. -/
def keptSize (cluster : List Char) : Nat := (String.ofList cluster).utf8ByteSize % 256

/-- Types a grapheme cluster. A backspace is a cluster of its own. -/
def type? (line : TypedLine) (cluster : List Char) : Option TypedLine :=
  if cluster = ['\x08'] then
    match line.sizes with
    | [] => some line
    | size :: sizes => (dropBytes? size line.text).map fun text => { text, sizes }
  else
    some { text := cluster.reverse ++ line.text, sizes := keptSize cluster :: line.sizes }

end TypedLine

/-- A line after its backspaces have been obeyed, unless that splits a character. -/
def obeyBackspaces? (line : List Char) : Option String :=
  ((graphemeClusters line).foldlM TypedLine.type? {}).map fun typed =>
    String.ofList typed.text.reverse

/-! ### Piped input -/

/-- The lines that come through a pipe. -/
structure PipedInput where
  /-- The lines, in order. -/
  lines : List String := []
  /-- Whether reading fails after them. -/
  broken : Bool := false
  deriving DecidableEq, Repr

namespace PipedInput

/-- A line that ended in a newline, less a carriage return before it. -/
def dropReturn (line : List Char) : List Char :=
  if line.getLast? = some '\r' then line.dropLast else line

/-- The lines of a text, where `line` is the present one so far, in reverse. A last line
without a newline counts as one, unless it is empty. -/
def splitLines (line : List Char) : List Char → List (List Char)
  | [] => if line.isEmpty then [] else [line.reverse]
  | '\n' :: rest => dropReturn line.reverse :: splitLines [] rest
  | c :: rest => splitLines (c :: line) rest

/-- The lines up to the first that cannot be read. -/
def ofLines : List (List Char) → PipedInput
  | [] => {}
  | line :: others =>
    match obeyBackspaces? line with
    | none => { broken := true }
    | some text =>
      let input := ofLines others
      { input with lines := text :: input.lines }

/-- The lines of a text that comes through a pipe. -/
def ofText (text : String) : PipedInput := ofLines (splitLines [] text.toList)

end PipedInput

end Lox.Console
