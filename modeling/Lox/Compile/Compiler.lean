import Lox.Compile.Draft

/-!
# The compiler's state

The compiler reads tokens and writes code in one pass. It sees two tokens at a time: the one
just consumed and the one about to be. Code is always written for the line of the one just
consumed.

After a diagnostic the compiler *panics*: it reports nothing more until it has found the
start of another statement.

## Main definitions

* `Compiler`, `CompileM`.
* `advance`, `accept`, `expect` — consuming tokens.
* `complain`, `synchronize` — reporting and recovering.
* `emitByte`, `emitJump`, `patchJump`, `emitLoop` — writing code.
-/

namespace Lox

/-- The compiler between two steps. -/
structure Compiler where
  /-- The tokens not yet seen. -/
  tokens : TokenStream
  /-- The token about to be consumed. -/
  current : Token
  /-- The token consumed last. -/
  previous : Token
  /-- The diagnostic that started the present panic, if there is one. -/
  alarm : Option Diagnostic := none
  /-- What was reported in the panics that are over. -/
  diagnostics : Array Diagnostic := #[]
  /-- The function being compiled. -/
  draft : Draft
  /-- The functions around it, innermost first. -/
  enclosing : List Draft := []
  /-- The objects that the caller keeps alive. -/
  held : List Handle
  /-- Where objects are allocated. -/
  heap : Heap

/-- A step of the compiler. -/
abbrev CompileM := EStateM Fault Compiler

namespace Compiler

/-- The compiler before the first token: the script is its only draft. -/
def start (tokens : TokenStream) (held : List Handle) (heap : Heap) : Compiler :=
  let nowhere : Token := ⟨.endOfInput, "", 1⟩
  { tokens, current := nowhere, previous := nowhere
    draft := { name := none, isScript := true }, held, heap }

/-- Everything that must outlive a collection: what the caller holds, and the names and
constants of the drafts. -/
def roots (held : List Handle) (draft : Draft) (enclosing : List Draft) : List Handle :=
  held ++ (draft :: enclosing).flatMap Draft.handles

/-! ### Diagnostics -/

/-- Whether diagnostics are withheld. -/
def panicking (c : Compiler) : Bool := c.alarm.isSome

/-- All that has been reported. -/
def reported (c : Compiler) : Array Diagnostic :=
  match c.alarm with
  | none => c.diagnostics
  | some d => c.diagnostics.push d

/-- Reports an issue at a token, unless the compiler is panicking, and panics. -/
def report (c : Compiler) (token : Token) (issue : Issue) : Compiler :=
  if c.panicking then c else { c with alarm := some (.atToken token issue) }

/-- Reports an issue at the token consumed last. -/
def complain (issue : Issue) : CompileM Unit := modify fun c => c.report c.previous issue

/-- Reports an issue at the token about to be consumed. -/
def complainAhead (issue : Issue) : CompileM Unit := modify fun c => c.report c.current issue

/-! ### Tokens -/

/-- Takes the next token that is well formed and reports the malformed ones before it. -/
def pull (c : Compiler) : List Token → Compiler
  | [] => { c with tokens := { c.tokens with pending := [] }, current := c.tokens.final }
  | token :: pending =>
    if token.kind = .malformed then pull (c.report token (.malformed token.lexeme)) pending
    else { c with tokens := { c.tokens with pending }, current := token }

/-- Consumes a token. -/
def advance : CompileM Unit :=
  modify fun c => { c with previous := c.current }.pull c.tokens.pending

/-- Whether the token about to be consumed is of a kind. -/
def check (kind : TokenKind) : CompileM Bool := return (← get).current.kind = kind

/-- Consumes a token if it is of a kind, and tells whether it was. -/
def accept (kind : TokenKind) : CompileM Bool := do
  if ← check kind then
    advance
    return true
  else return false

/-- Consumes a token of a kind, or reports that it is missing. -/
def expect (kind : TokenKind) (what : Expectation) : CompileM Unit := do
  if ← check kind then advance else complainAhead (.expected what)

/-- Whether a token starts a statement or a declaration by its kind alone. -/
def startsStatement : TokenKind → Bool
  | .classWord | .funWord | .varWord | .forWord | .ifWord | .whileWord | .printWord
  | .returnWord => true
  | _ => false

/-- Consumes tokens up to a place where a statement may start: after a semicolon, before a
word that starts one, or at the end of input. -/
def skipStatement : (steps : Nat) → CompileM Unit
  | 0 => throw .exhausted
  | steps + 1 => do
    let c ← get
    if c.current.kind = .endOfInput || c.previous.kind = .semicolon
        || startsStatement c.current.kind then
      return ()
    advance
    skipStatement steps

/-- Ends a panic at the start of another statement. -/
def synchronize : CompileM Unit := do
  modify fun c => { c with diagnostics := c.reported, alarm := none }
  skipStatement ((← get).tokens.pending.length + 2)

/-! ### Code -/

/-- Changes the draft. -/
def modifyDraft (f : Draft → Draft) : CompileM Unit :=
  modify fun c => { c with draft := f c.draft }

/-- How many bytes of code the draft has. -/
def codeSize : CompileM Nat := return (← get).draft.chunk.code.size

/-- Writes a byte for the line of the token consumed last. -/
def emitByte (byte : UInt8) : CompileM Unit :=
  modify fun c =>
    let line := c.previous.line
    { c with draft := { c.draft with chunk := c.draft.chunk.write byte line } }

/-- Writes an operation without operand. -/
def emit (op : OpCode) : CompileM Unit := emitByte op.toByte

/-- Writes an operation and its one-byte operand. -/
def emitWith (op : OpCode) (operand : UInt8) : CompileM Unit := do
  emit op
  emitByte operand

/-- Writes the implicit end of a function: it gives back `nil`. -/
def emitReturn : CompileM Unit := do
  emit .pushNil
  emit .giveBack

/-- Adds a constant and gives its operand. -/
def makeConstant (value : Value) : CompileM UInt8 := fun c =>
  match c.draft.chunk.addConstant? value with
  | some (index, chunk) => .ok index { c with draft := { c.draft with chunk } }
  | none => .ok 0 (c.report c.previous .tooManyConstants)

/-- Writes an operation that pushes a constant. -/
def emitConstant (value : Value) : CompileM Unit := do
  emitWith .constant (← makeConstant value)

/-! ### Jumps -/

/-- The longest distance that the operand of a jump can hold. -/
def maxJump : Nat := 65535

/-- Writes a forward jump to a place not yet known, and gives the offset of its operand. -/
def emitJump (op : OpCode) : CompileM Nat := do
  emit op
  emitByte 0xff
  emitByte 0xff
  return (← codeSize) - 2

/-- Lets the forward jump with its operand at an offset lead to the end of the code. The
distance counts from the end of the operand. -/
def patchJump (operand : Nat) : CompileM Unit := do
  let distance := (← codeSize) - operand - 2
  if distance ≤ maxJump then
    modifyDraft fun d => { d with chunk := d.chunk.patch operand distance }
  else complain .jumpTooLong

/-- Writes a jump back to an offset. The distance counts from the end of the operand, which
is yet to be written. -/
def emitLoop (target : Nat) : CompileM Unit := do
  emit .loop
  let distance := (← codeSize) - target + 2
  if distance ≤ maxJump then
    emitByte (Chunk.highByte distance)
    emitByte (Chunk.lowByte distance)
  else
    complain .loopTooLong
    emitByte 0
    emitByte 0

/-! ### Objects -/

/-- The interned string with a given text. -/
def intern (text : String) : CompileM Handle := fun c =>
  match Heap.intern text (roots c.held c.draft c.enclosing) c.heap with
  | .ok h heap => .ok h { c with heap }
  | .error fault heap => .error fault { c with heap }

/-- Ends the code of the draft and allocates its function. -/
def finishFunction : CompileM Handle := do
  emitReturn
  fun c =>
    match Heap.allocate (.function c.draft.finish) (roots c.held c.draft c.enclosing) c.heap with
    | .ok h heap => .ok h { c with heap }
    | .error fault heap => .error fault { c with heap }

/-- Starts the draft of a function inside the present one. -/
def enterFunction (name : Handle) : CompileM Unit :=
  modify fun c =>
    { c with
      draft := { name := some name, isScript := false }
      enclosing := c.draft :: c.enclosing }

/-- Goes back to the draft around the present one. -/
def leaveFunction : CompileM Unit :=
  modify fun c =>
    match c.enclosing with
    | [] => c
    | draft :: enclosing => { c with draft, enclosing }

end Compiler

end Lox
