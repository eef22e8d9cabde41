import Lox.Heap.Allocate
import Lox.Diagnostic

/-!
# Drafts

A draft is a function whose body is still being compiled: the code written so far, the
locals in scope with the stack slots they will occupy, and the variables captured from the
functions around it.

## Main definitions

* `Local`, `Capture`, `Draft`.
* `Draft.local?` — the local that a name means inside one function.
* `Draft.capture?` — the captured variable that a name means, through any nesting.
-/

namespace Lox

/-- A local variable of a draft. -/
structure Local where
  /-- Its name. -/
  name : String
  /-- The depth of its scope, once its initializer has been compiled. -/
  depth : Option Nat
  /-- Whether an inner function captures it. -/
  captured : Bool := false
  deriving DecidableEq, Repr

/-- How a closure finds a variable that it captures at the moment it is made. -/
structure Capture where
  /-- A slot of the enclosing frame, or an index into what the enclosing closure captured. -/
  index : UInt8
  /-- Whether `index` is a slot of the enclosing frame. -/
  isLocal : Bool
  deriving DecidableEq, Repr

/-- A function in the making. -/
structure Draft where
  /-- The string that names the function; the script has none. -/
  name : Option Handle
  /-- Whether this is the script itself. -/
  isScript : Bool
  /-- How many parameters have been declared. -/
  arity : Nat := 0
  /-- The code so far. -/
  chunk : Chunk := {}
  /-- The locals in scope, newest first. Slot zero holds the function itself. -/
  locals : List Local := [⟨"", some 0, false⟩]
  /-- The captured variables, oldest first. -/
  captures : Array Capture := #[]
  /-- How many scopes are open. -/
  depth : Nat := 0

namespace Draft

/-- How many locals a one-byte operand can tell apart. -/
def maxLocals : Nat := 256

/-- How many captured variables a one-byte operand can tell apart. -/
def maxCaptures : Nat := 256

/-- How many parameters a function can have, and how many arguments a call can pass. -/
def maxArity : Nat := 255

/-- The finished function. -/
def finish (d : Draft) : Function :=
  { arity := d.arity, upvalueCount := d.captures.size, name := d.name, chunk := d.chunk }

/-- The objects that a draft must keep alive: its name and its constants. -/
def handles (d : Draft) : List Handle :=
  d.name.toList ++ d.chunk.constants.toList.filterMap Value.handle?

/-! ### Locals -/

/-- The newest of the locals with a given name, and its slot. -/
def findLocal? (name : String) : List Local → Option (Nat × Local)
  | [] => none
  | l :: older => if l.name = name then some (older.length, l) else findLocal? name older

/-- The local that a name means, and its slot. -/
def local? (d : Draft) (name : String) : Option (Nat × Local) := findLocal? name d.locals

/-- The locals with the one at a slot marked as captured. -/
def captureLocal (slot : Nat) : List Local → List Local
  | [] => []
  | l :: older =>
    if older.length = slot then { l with captured := true } :: older
    else l :: captureLocal slot older

/-- Whether a local belongs to the scope at a depth or to one inside it. A local whose
initializer is being compiled belongs to the innermost scope. -/
def isWithin (depth : Nat) (l : Local) : Bool :=
  match l.depth with
  | none => true
  | some d => depth ≤ d

/-- Whether the innermost scope already has a local with this name. -/
def declares (d : Draft) (name : String) : Bool :=
  (d.locals.takeWhile (isWithin d.depth)).any (·.name = name)

/-- Lets the newest local be used, now that its initializer has been compiled. -/
def markNewest (d : Draft) : Draft :=
  match d.locals with
  | [] => d
  | l :: older => { d with locals := { l with depth := some d.depth } :: older }

/-! ### Captured variables -/

/-- What looking a name up in the enclosing functions gives. -/
structure Lookup where
  /-- The index of the captured variable, if there is one. -/
  index : Option UInt8
  /-- The draft that asked. -/
  draft : Draft
  /-- The drafts around it, innermost first. -/
  enclosing : List Draft
  /-- What was found wrong on the way, in order. -/
  issues : List Issue := []

/-- Captures a variable, unless the draft has already captured it, and gives its index. -/
def addCapture (d : Draft) (wanted : Capture) : UInt8 × Draft × List Issue :=
  match d.captures.findIdx? (· = wanted) with
  | some i => (UInt8.ofNat i, d, [])
  | none =>
    if d.captures.size = maxCaptures then (0, d, [.tooManyCaptures])
    else (UInt8.ofNat d.captures.size, { d with captures := d.captures.push wanted }, [])

/-- The issue with a mention of a local: its own initializer must not mention it. -/
def mentionIssues (l : Local) : List Issue :=
  if l.depth.isNone then [.localInOwnInitializer] else []

/-- Looks a name up in the enclosing functions, nearest first. The nearest function that has
a local of this name gives up a slot; every function between it and the asking one passes
the variable on as a capture of its own. -/
def capture? (name : String) (d : Draft) : List Draft → Lookup
  | [] => { index := none, draft := d, enclosing := [] }
  | outer :: others =>
    match outer.local? name with
    | some (slot, l) =>
      let slot := UInt8.ofNat slot
      let (index, d, issues) := d.addCapture ⟨slot, true⟩
      let outer := { outer with locals := captureLocal slot.toNat outer.locals }
      { index := some index, draft := d, enclosing := outer :: others,
        issues := mentionIssues l ++ issues }
    | none =>
      let found := capture? name outer others
      match found.index with
      | none => { found with draft := d, enclosing := found.draft :: found.enclosing }
      | some passed =>
        let (index, d, issues) := d.addCapture ⟨passed, false⟩
        { index := some index, draft := d, enclosing := found.draft :: found.enclosing,
          issues := found.issues ++ issues }

end Draft

end Lox
