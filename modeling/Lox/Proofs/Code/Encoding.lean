import Lox.Compile.Statement
import Lox.Proofs.Code.Template
import Lox.Proofs.Syntax.Tree

/-!
# The code of a tree

Which instruction bytes stand for which tree. Jumps are relative, so the code of a tree does
not depend on its place, and it is put together from the code of its parts.

What the code does depend on is the *context*: the constants of the function, and the locals
and captured variables of the function and of those around it. A context describes a function
when its compilation is over. In particular it tells of each local whether some inner function
captures it, even where that function comes later in the source.

## Main definitions

* `Layer`, `Context` — what the compiler knows about a function and those around it.
* `Refers` — what a name refers to, through any nesting of functions.
* `Encoding.Expression`, `Encoding.Declaration` — the code of expressions and statements.
-/

namespace Lox

/-! ### Instructions -/

namespace OpCode

/-- An instruction without operand. -/
def plain (op : OpCode) : List UInt8 := [op.toByte]

/-- An instruction with a one-byte operand. -/
def short (op : OpCode) (operand : UInt8) : List UInt8 := [op.toByte, operand]

/-- An instruction with a two-byte operand. -/
def long (op : OpCode) (operand : Nat) : List UInt8 :=
  [op.toByte, Chunk.highByte operand, Chunk.lowByte operand]

@[simp]
theorem length_plain (op : OpCode) : op.plain.length = 1 := rfl

@[simp]
theorem length_short (op : OpCode) (operand : UInt8) : (op.short operand).length = 2 := rfl

@[simp]
theorem length_long (op : OpCode) (operand : Nat) : (op.long operand).length = 3 := rfl

end OpCode

/-! ### Contexts -/

/-- A local variable of a finished function. -/
structure Variable where
  /-- Its name. -/
  name : String
  /-- Whether an inner function captures it. -/
  captured : Bool
  deriving DecidableEq, Repr

/-- The instruction that takes a variable off the stack when its scope ends. -/
def Variable.discard (v : Variable) : OpCode := if v.captured then .closeUpvalue else .pop

/-- The slot of the newest of the variables with a given name. -/
def slot? (name : String) : List Variable → Option Nat
  | [] => none
  | v :: older => if v.name = name then some older.length else slot? name older

/-- Whether the variable in a slot is captured. -/
def isShared (slot : Nat) : List Variable → Bool
  | [] => false
  | v :: older => if older.length = slot then v.captured else isShared slot older

/-- The variables of one function at a place in its code. -/
structure Layer where
  /-- The locals in scope, newest first. Slot zero holds the function itself. -/
  locals : List Variable
  /-- All variables that the function captures, oldest first. -/
  captures : List Capture

/-- The layer inside the scope of further locals. -/
def Layer.push (L : Layer) (added : List Variable) : Layer :=
  { L with locals := added ++ L.locals }

/-- A function's way to a captured variable is open in the function around it: it leads to a
shared slot or to a variable captured there. -/
def Capture.IsOpen (c : Capture) (outer : Layer) : Prop :=
  if c.isLocal then isShared c.index.toNat outer.locals = true
  else c.index.toNat < outer.captures.length

/-- The bytes that tell how a variable is captured. -/
def Capture.bytes (c : Capture) : List UInt8 := [if c.isLocal then 1 else 0, c.index]

/-- What the compiler knows at a place in the code of a function. -/
structure Context where
  /-- The constants of the function. -/
  constants : List Constant
  /-- Its variables. -/
  layer : Layer
  /-- The variables of the functions around it, innermost first. -/
  outer : List Layer
  /-- Whether the place is inside a scope. -/
  inScope : Bool

namespace Context

/-- The context inside the scope of further locals. -/
def push (K : Context) (added : List Variable) : Context :=
  { K with layer := K.layer.push added }

@[simp]
theorem push_nil (K : Context) : K.push [] = K := rfl

@[simp]
theorem push_push (K : Context) (first second : List Variable) :
    (K.push first).push second = K.push (second ++ first) := by
  simp [push, Layer.push]

/-- The context inside a block. -/
def inside (K : Context) : Context := { K with inScope := true }

end Context

/-! ### References -/

/-- The captured variable of a given index is the one with a given name. The nearest function
around with a local of this name gives up a slot, and the functions in between pass it on. -/
inductive Leads (name : String) : List Capture → List Layer → Nat → Prop
  | here {captures : List Capture} {L : Layer} {outer : List Layer} {i : Nat} {c : Capture} :
      captures[i]? = some c → c.isLocal = true → slot? name L.locals = some c.index.toNat →
      isShared c.index.toNat L.locals = true → Leads name captures (L :: outer) i
  | through {captures : List Capture} {L : Layer} {outer : List Layer} {i : Nat} {c : Capture} :
      captures[i]? = some c → c.isLocal = false → slot? name L.locals = none →
      Leads name L.captures outer c.index.toNat → Leads name captures (L :: outer) i

/-- A way to a captured variable starts at one that the function captures. -/
theorem Leads.lt {name : String} {captures : List Capture} {outer : List Layer} {i : Nat}
    (leads : Leads name captures outer i) : i < captures.length := by
  cases leads with
  | here hc => exact (List.getElem?_eq_some_iff.mp hc).1
  | through hc => exact (List.getElem?_eq_some_iff.mp hc).1

/-- What a name refers to: a local of the function, else a local of the nearest function
around that has one, else a global. -/
inductive Refers (K : Context) (name : String) : Compiler.Reference → Prop
  | slot {operand : UInt8} : slot? name K.layer.locals = some operand.toNat →
      Refers K name (.slot operand)
  | upvalue {operand : UInt8} : slot? name K.layer.locals = none →
      Leads name K.layer.captures K.outer operand.toNat → Refers K name (.upvalue operand)
  | global {operand : UInt8} : (∀ L ∈ K.layer :: K.outer, slot? name L.locals = none) →
      K.constants[operand.toNat]? = some (.text name) → Refers K name (.global operand)

namespace Encoding

/-! ### Expressions -/

mutual

/-- The code of an expression, which leaves its value on the stack. -/
inductive Expression (K : Context) : Expr → List UInt8 → Prop
  | nil : Expression K (.literal .nil) OpCode.pushNil.plain
  | true : Expression K (.literal (.bool true)) OpCode.pushTrue.plain
  | false : Expression K (.literal (.bool false)) OpCode.pushFalse.plain
  | number {x : Float} {i : UInt8} : K.constants[i.toNat]? = some (.number x) →
      Expression K (.literal (.number x)) (OpCode.constant.short i)
  | text {s : String} {i : UInt8} : K.constants[i.toNat]? = some (.text s) →
      Expression K (.literal (.text s)) (OpCode.constant.short i)
  | variable {name : String} {r : Compiler.Reference} : Refers K name r →
      Expression K (.variable name) (r.read.1.short r.read.2)
  | assign {name : String} {r : Compiler.Reference} {value : Expr} {bs : List UInt8} :
      Refers K name r → Expression K value bs →
        Expression K (.assign name value) (bs ++ r.write.1.short r.write.2)
  | unary {op : UnaryOperator} {operand : Expr} {bs : List UInt8} : Expression K operand bs →
      Expression K (.unary op operand) (bs ++ op.code.plain)
  | binary {op : BinaryOperator} {left right : Expr} {bs ds : List UInt8} :
      Expression K left bs → Expression K right ds →
        Expression K (.binary op left right) (bs ++ ds ++ op.code.flatMap OpCode.plain)
  | both {left right : Expr} {bs ds : List UInt8} : Expression K left bs →
      Expression K right ds → ds.length + 1 ≤ Compiler.maxJump →
        Expression K (.both left right)
          (bs ++ OpCode.jumpIfFalse.long (ds.length + 1) ++ OpCode.pop.plain ++ ds)
  | either {left right : Expr} {bs ds : List UInt8} : Expression K left bs →
      Expression K right ds → ds.length + 1 ≤ Compiler.maxJump →
        Expression K (.either left right)
          (bs ++ OpCode.jumpIfFalse.long 3 ++ OpCode.jump.long (ds.length + 1) ++
            OpCode.pop.plain ++ ds)
  | call {callee : Expr} {arguments : List Expr} {bs ds : List UInt8} :
      Expression K callee bs → Arguments K arguments ds → arguments.length ≤ Draft.maxArity →
        Expression K (.call callee arguments)
          (bs ++ ds ++ OpCode.call.short (UInt8.ofNat arguments.length))

/-- The code of arguments, which leaves their values on the stack, the last on top. -/
inductive Arguments (K : Context) : List Expr → List UInt8 → Prop
  | nil : Arguments K [] []
  | cons {e : Expr} {others : List Expr} {bs ds : List UInt8} : Expression K e bs →
      Arguments K others ds → Arguments K (e :: others) (bs ++ ds)

end

/-! ### Statements -/

/-- The end of a declaration: the value on the stack becomes a new local, or a global. -/
inductive Declares (K : Context) (name : String) : List Variable → List UInt8 → Prop
  | local (captured : Bool) : K.inScope = true → Declares K name [⟨name, captured⟩] []
  | global {i : UInt8} : K.inScope = false → K.constants[i.toNat]? = some (.text name) →
      Declares K name [] (OpCode.defineGlobal.short i)

/-- The test of a loop, which skips `distance` bytes if it fails, with what stands in front of
the body for it and at the end of the loop. -/
inductive Test (K : Context) : Option Expr → (distance : Nat) → List UInt8 → List UInt8 → Prop
  | none {distance : Nat} : Test K none distance [] []
  | some {condition : Expr} {distance : Nat} {bs : List UInt8} : Expression K condition bs →
      distance ≤ Compiler.maxJump →
        Test K (some condition) distance
          (bs ++ OpCode.jumpIfFalse.long distance ++ OpCode.pop.plain) OpCode.pop.plain

/-- The increment of a loop, whose test takes `back` bytes, and how far it is from the end of
the increment to the place where a round of the loop goes on. -/
inductive Step (K : Context) : Option Expr → (back : Nat) → List UInt8 → Nat → Prop
  | none {back : Nat} : Step K none back [] back
  | some {increment : Expr} {back : Nat} {bs : List UInt8} : Expression K increment bs →
      back + bs.length + 7 ≤ Compiler.maxJump →
        Step K (some increment) back
          (OpCode.jump.long (bs.length + 4) ++ bs ++ OpCode.pop.plain ++
            OpCode.loop.long (back + bs.length + 7)) (bs.length + 4)

mutual

/-- The code of a statement, and the locals that it adds to its scope, newest first. -/
inductive Declaration : Context → Stmt → List UInt8 → List Variable → Prop
  | expression {K : Context} {e : Expr} {bs : List UInt8} : Expression K e bs →
      Declaration K (.expression e) (bs ++ OpCode.pop.plain) []
  | print {K : Context} {e : Expr} {bs : List UInt8} : Expression K e bs →
      Declaration K (.print e) (bs ++ OpCode.print.plain) []
  | giveBack {K : Context} {e : Expr} {bs : List UInt8} : K.outer ≠ [] → Expression K e bs →
      Declaration K (.giveBack e) (bs ++ OpCode.giveBack.plain) []
  | variable {K : Context} {name : String} {initial : Expr} {bs ds : List UInt8}
      {added : List Variable} : Expression K initial bs → Declares K name added ds →
        Declaration K (.variable name initial) (bs ++ ds) added
  | function {K : Context} {name : String} {parameters : List String} {body : List Stmt}
      {bs ds : List UInt8} {added : List Variable} :
      Function (K.push added) name parameters body bs → Declares K name added ds →
        Declaration K (.function name parameters body) (bs ++ ds) added
  | block {K : Context} {body : List Stmt} {bs : List UInt8} {added : List Variable} :
      Declarations K.inside body bs added →
        Declaration K (.block body) (bs ++ added.flatMap fun v => v.discard.plain) []
  | choice {K : Context} {condition : Expr} {yes no : Stmt} {bs cs ds : List UInt8} :
      Expression K condition bs → Declaration K yes cs [] → Declaration K no ds [] →
      cs.length + 4 ≤ Compiler.maxJump → ds.length + 1 ≤ Compiler.maxJump →
        Declaration K (.choice condition yes no)
          (bs ++ OpCode.jumpIfFalse.long (cs.length + 4) ++ OpCode.pop.plain ++ cs ++
            OpCode.jump.long (ds.length + 1) ++ OpCode.pop.plain ++ ds) []
  | loop {K : Context} {condition increment : Option Expr} {body : Stmt}
      {front back middle bs : List UInt8} {reach : Nat} :
      Test K condition (1 + middle.length + bs.length + 3) front back →
      Step K increment front.length middle reach → Declaration K body bs [] →
      reach + bs.length + 3 ≤ Compiler.maxJump →
        Declaration K (.loop condition increment body)
          (front ++ middle ++ bs ++ OpCode.loop.long (reach + bs.length + 3) ++ back) []

/-- The code that makes a closure of a function. The code of the function itself is among the
constants of the place where the closure is made. -/
inductive Function : Context → String → List String → List Stmt → List UInt8 → Prop
  | closure {K : Context} {name : String} {parameters : List String} {body : List Stmt}
      {i : UInt8} {t : Template} {constants : List Constant} {captures : List Capture} :
      K.constants[i.toNat]? = some (.function t constants) → t.name = some name →
      (∀ c ∈ captures, c.IsOpen K.layer) →
      Body (K.layer :: K.outer) parameters body captures t constants →
        Function K name parameters body
          (OpCode.closure.short i ++ captures.flatMap Capture.bytes)

/-- The function that a declaration stands for, with the variables that it captures, where the
functions around it have given layers. -/
inductive Body : List Layer → List String → List Stmt → List Capture → Template →
    List Constant → Prop
  | intro {outer : List Layer} {parameters : List String} {body : List Stmt}
      {captures : List Capture} {t : Template} {constants : List Constant}
      {own inner : List Variable} {bs : List UInt8} :
      t.name ≠ none → t.arity = parameters.length → t.upvalueCount = captures.length →
      captures.length ≤ Draft.maxCaptures → captures.Nodup →
      t.code = bs ++ OpCode.pushNil.plain ++ OpCode.giveBack.plain →
      t.lines.length = t.code.length → own.map Variable.name = parameters.reverse ++ [""] →
      Declarations ⟨constants, ⟨own, captures⟩, outer, true⟩ body bs inner →
        Body outer parameters body captures t constants

/-- The code of declarations one after another, and the locals that they add. -/
inductive Declarations : Context → List Stmt → List UInt8 → List Variable → Prop
  | nil {K : Context} : Declarations K [] [] []
  | cons {K : Context} {s : Stmt} {others : List Stmt} {bs ds : List UInt8}
      {added more : List Variable} : Declaration K s bs added →
      Declarations (K.push added) others ds more →
        Declarations K (s :: others) (bs ++ ds) (more ++ added)

end

/-- The function of a script encodes a program: it has no parameters, and it captures nothing. -/
structure Script (program : List Stmt) (t : Template) (constants : List Constant) : Prop where
  name : t.name = none
  arity : t.arity = 0
  upvalueCount : t.upvalueCount = 0
  lines : t.lines.length = t.code.length
  code : ∃ bs own, t.code = bs ++ OpCode.pushNil.plain ++ OpCode.giveBack.plain ∧
    own.map Variable.name = [""] ∧
    Declarations ⟨constants, ⟨own, []⟩, [], false⟩ program bs []

/-- A statement behind declarations that may use their locals. -/
theorem Declarations.concat {K : Context} {ss : List Stmt} {s : Stmt} {bs ds : List UInt8}
    {added : List Variable} (first : Declarations K ss bs added)
    (last : Declaration (K.push added) s ds []) : Declarations K (ss ++ [s]) (bs ++ ds) added := by
  induction ss generalizing K bs added with
  | nil =>
      cases first
      rw [Context.push_nil] at last
      simpa using Declarations.cons last .nil
  | cons s' ss ih =>
      cases first with
      | cons hfirst hrest =>
          rw [List.append_assoc]
          refine .cons hfirst (ih hrest ?_)
          rwa [Context.push_push]

end Encoding

/-- A constant of a compiled function. If it is a function, then it has been compiled from a
declaration, and so have all functions among its own constants. -/
inductive Constant.Compiled : Constant → Prop
  | number (x : Float) : Compiled (.number x)
  | text (s : String) : Compiled (.text s)
  | function {outer : List Layer} {parameters : List String} {body : List Stmt}
      {captures : List Capture} {t : Template} {constants : List Constant} :
      Encoding.Body outer parameters body captures t constants →
      (∀ k ∈ constants, Compiled k) → Compiled (.function t constants)

end Lox
