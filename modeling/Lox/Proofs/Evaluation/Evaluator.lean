import Lox.Proofs.Reference.Machine
import Lox.Proofs.Syntax.Tree

/-!
# Evaluating trees

What a program means, told on its syntax tree and without code, stack or heap. The locals in
scope are a list of names with their data; a block adds to it and takes away what it has added,
and a call starts with its parameters. Operands are evaluated from left to right, the arguments
of a call are data, and a function that ends without `return` gives `nil`.

A function of the evaluator sees its own locals and the globals. That is all there is to see in
a program in which no function mentions a local variable of a function around it.

Evaluation is structural in the tree. What need not end are loops and calls; each round of a loop
and each call inside a call is paid with *fuel*, and an evaluation that would take more is cut off.

## Main definitions

* `Eval.World` — the variables, the functions and what has been printed.
* `Eval.expression`, `Eval.statement` — the meaning of expressions and statements.
* `Eval.invoke` — calling a function.
* `Eval.program` — the meaning of a program.
-/

namespace Lox

/-- The datum that a literal stands for. -/
def Literal.datum : Literal → Datum
  | nil => .nil
  | bool b => .bool b
  | number x => .number x
  | text s => .text s

namespace Eval

/-- A function as it was declared. A program is a function without name. -/
structure Function where
  /-- Its name. -/
  name : Option String
  /-- The names of its parameters. -/
  parameters : List String
  /-- What it does. -/
  body : List Stmt

/-- Declarations in the body of a function are local. Those of a program are global. -/
def Function.isLocal (f : Function) : Bool := f.name.isSome

/-- What can be called. -/
inductive Callable where
  | function (f : Function)
  | native (n : Native)

/-- What an evaluation reads and changes. -/
structure World where
  /-- Everything that can be called, by its number. -/
  callables : Array Callable := #[]
  /-- The globals. -/
  globals : String → Option Datum := fun _ => none
  /-- The locals in scope, newest first. -/
  locals : List (String × Datum) := []
  /-- The lines that have been printed. -/
  lines : List String := []
  /-- The reading of the host's clock at each call of a host function. -/
  clock : Nat → Float
  /-- How many calls of host functions there have been. -/
  hostCalls : Nat := 0

/-- Why an evaluation stops before its end. -/
inductive Stop where
  /-- A runtime error. -/
  | raised (cause : Cause)
  /-- There is no fuel left. -/
  | exhausted

/-- An evaluation. -/
abbrev Act := EStateM Stop World

/-- Raises a runtime error. -/
def raise {α : Type} (cause : Cause) : Act α := throw (.raised cause)

/-! ### Variables -/

/-- Reads a variable: the newest local of the name, else the global. -/
def read (name : String) : Act Datum := do
  let w ← get
  match w.locals.lookup name with
  | some d => return d
  | none =>
    match w.globals name with
    | some d => return d
    | none => raise (.undefinedVariable name)

/-- Locals with a new datum in the newest one of a name, if there is one. -/
def reassign? (name : String) (d : Datum) : List (String × Datum) → Option (List (String × Datum))
  | [] => none
  | l :: older =>
    if l.1 = name then some ((name, d) :: older) else (reassign? name d older).map (l :: ·)

/-- Sets a global, whether or not it exists. -/
def setGlobal (name : String) (d : Datum) : Act Unit :=
  modify fun w =>
    { w with globals := fun other => if other = name then some d else w.globals other }

/-- Assigns a variable that exists. -/
def assign (name : String) (d : Datum) : Act Unit := do
  let w ← get
  match reassign? name d w.locals with
  | some locals => set { w with locals }
  | none => if (w.globals name).isSome then setGlobal name d else raise (.undefinedVariable name)

/-- Declares a variable. -/
def declare (isLocal : Bool) (name : String) (d : Datum) : Act Unit :=
  if isLocal then modify fun w => { w with locals := (name, d) :: w.locals } else setGlobal name d

/-- Leaves the scope of all locals but the oldest ones. -/
def leave (count : Nat) : Act Unit :=
  modify fun w => { w with locals := w.locals.drop (w.locals.length - count) }

/-! ### Operators -/

/-- The value of an operator in front of one operand. -/
def unary : UnaryOperator → Datum → Act Datum
  | .not, d => return .bool d.isFalsey
  | .negate, .number x => return .number (-x)
  | .negate, _ => raise .operandNotNumber

/-- An operation on two numbers. -/
def onNumbers (operation : Float → Float → Datum) : Datum → Datum → Act Datum
  | .number x, .number y => return operation x y
  | _, _ => raise .operandsNotNumbers

/-- The sum of two numbers, or two texts joined. -/
def add : Datum → Datum → Act Datum
  | .number x, .number y => return .number (x + y)
  | .text s, .text t => return .text (s ++ t)
  | _, _ => raise .operandsNotAddable

/-- The value of an operator between two operands. -/
def binary : BinaryOperator → Datum → Datum → Act Datum
  | .equal, a, b => return .bool (a.same b)
  | .notEqual, a, b => return .bool (!a.same b)
  | .greater, a, b => onNumbers (fun x y => .bool (y < x)) a b
  | .greaterEqual, a, b => onNumbers (fun x y => .bool (!decide (x < y))) a b
  | .less, a, b => onNumbers (fun x y => .bool (x < y)) a b
  | .lessEqual, a, b => onNumbers (fun x y => .bool (!decide (y < x))) a b
  | .add, a, b => add a b
  | .subtract, a, b => onNumbers (fun x y => .number (x - y)) a b
  | .multiply, a, b => onNumbers (fun x y => .number (x * y)) a b
  | .divide, a, b => onNumbers (fun x y => .number (x / y)) a b

/-! ### Printing and calling -/

/-- The text of a datum, as a program prints it. -/
def World.display (w : World) : Datum → String
  | .nil => "nil"
  | .bool b => if b then "true" else "false"
  | .number x => Number.text x
  | .text s => s
  | .callable id =>
    match w.callables[id]? with
    | some (.function ⟨some name, _, _⟩) => "<fn " ++ name ++ ">"
    | some (.function ⟨none, _, _⟩) => "<script>"
    | _ => "<native fn>"

/-- Prints a datum on a line of its own. -/
def print (d : Datum) : Act Unit := modify fun w => { w with lines := w.lines ++ [w.display d] }

/-- Makes something that can be called, and gives its number. -/
def make (c : Callable) : Act Nat := fun w =>
  .ok w.callables.size { w with callables := w.callables.push c }

/-- Applies a datum to arguments, where it is known how functions are called. -/
def apply (call : Function → List Datum → Act Datum) (callee : Datum) (arguments : List Datum) :
    Act Datum := do
  let w ← get
  match callee with
  | .callable id =>
    match w.callables[id]? with
    | some (.function f) =>
      if arguments.length = f.parameters.length then call f arguments
      else raise (.arityMismatch f.parameters.length arguments.length)
    | some (.native n) => do
      set { w with hostCalls := w.hostCalls + 1 }
      return n.run.onData (w.clock w.hostCalls) arguments
    | none => raise .notCallable
  | _ => raise .notCallable

/-! ### Expressions -/

mutual

/-- The value of an expression. -/
def expression (call : Function → List Datum → Act Datum) : Expr → Act Datum
  | .literal l => return l.datum
  | .variable name => read name
  | .assign name value => do
    let d ← expression call value
    assign name d
    return d
  | .unary op operand => do unary op (← expression call operand)
  | .binary op left right => do
    let a ← expression call left
    let b ← expression call right
    binary op a b
  | .both left right => do
    let a ← expression call left
    if a.isFalsey then return a else expression call right
  | .either left right => do
    let a ← expression call left
    if a.isFalsey then expression call right else return a
  | .call callee arguments => do
    let f ← expression call callee
    let ds ← expressions call arguments
    apply call f ds

/-- The values of expressions, one after another. -/
def expressions (call : Function → List Datum → Act Datum) : List Expr → Act (List Datum)
  | [] => return []
  | e :: others => do
    let d ← expression call e
    let ds ← expressions call others
    return d :: ds

end

/-! ### Statements -/

/-- Whether a loop goes on. -/
def test (call : Function → List Datum → Act Datum) : Option Expr → Act Bool
  | none => return true
  | some condition => return !(← expression call condition).isFalsey

/-- What a loop does after each round. -/
def advance (call : Function → List Datum → Act Datum) : Option Expr → Act Unit
  | none => return ()
  | some increment => do let _ ← expression call increment

/-- Up to a count of rounds of a loop. -/
def rounds (test : Act Bool) (body : Act (Option Datum)) (advance : Act Unit) :
    (count : Nat) → Act (Option Datum)
  | 0 => throw .exhausted
  | count + 1 => do
    if ← test then
      match ← body with
      | some d => return some d
      | none =>
        advance
        rounds test body advance count
    else return none

mutual

/-- Does what a statement says. The answer is what is to be given back by the function around
it, if the statement has come to that. -/
def statement (call : Function → List Datum → Act Datum) (fuel : Nat) (isLocal : Bool) :
    Stmt → Act (Option Datum)
  | .expression e => do
    let _ ← expression call e
    return none
  | .print e => do
    print (← expression call e)
    return none
  | .giveBack e => do return some (← expression call e)
  | .variable name initial => do
    declare isLocal name (← expression call initial)
    return none
  | .function name parameters body => do
    let id ← make (.function ⟨some name, parameters, body⟩)
    declare isLocal name (.callable id)
    return none
  | .block body => do
    let count := (← get).locals.length
    let result ← statements call fuel true body
    leave count
    return result
  | .choice condition yes no => do
    if (← expression call condition).isFalsey then statement call fuel isLocal no
    else statement call fuel isLocal yes
  | .loop condition increment body =>
    rounds (test call condition) (statement call fuel isLocal body) (advance call increment) fuel

/-- Does what statements say, one after another. -/
def statements (call : Function → List Datum → Act Datum) (fuel : Nat) (isLocal : Bool) :
    List Stmt → Act (Option Datum)
  | [] => return none
  | s :: others => do
    match ← statement call fuel isLocal s with
    | some d => return some d
    | none => statements call fuel isLocal others

end

/-! ### Functions and programs -/

/-- Calls a function. Its locals are its own: those of the caller are kept until it is done. -/
def invoke : (fuel : Nat) → Function → List Datum → Act Datum
  | 0, _, _ => throw .exhausted
  | fuel + 1, f, arguments => do
    let callers := (← get).locals
    modify fun w => { w with locals := (f.parameters.zip arguments).reverse }
    let result ← statements (invoke fuel) fuel f.isLocal f.body
    modify fun w => { w with locals := callers }
    return result.getD .nil

/-- Does what a program says. -/
def program (fuel : Nat) (body : List Stmt) : Act Unit := do
  let script : Function := ⟨none, [], body⟩
  let _ ← make (.function script)
  let _ ← invoke fuel script []

/-- Makes a host function known under a name. -/
def World.bind (w : World) (name : String) (run : HostFunction) : World :=
  { w with
    callables := w.callables.push (.native { name, run })
    globals := fun other =>
      if other = name then some (.callable w.callables.size) else w.globals other }

/-- A new world, which knows the clock. -/
def World.new (clock : Nat → Float) : World := World.bind { clock } "clock" Session.clockFunction

end Eval

end Lox
