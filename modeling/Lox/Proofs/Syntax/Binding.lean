import Lox.Proofs.Syntax.Mentions

/-!
# What a program does with names

The variable that a name means is a matter of the text alone: it is the newest local of this name
in scope in the function at hand, else in the nearest function around that has one, else a global.
A program is walked with the names of the locals in scope, function by function, and what it does
with names is listed in the order of its code.

## Main definitions

* `Binding`, `Binding.of` — the variable that a name means.
* `Effect` — what one instruction does with a variable, or with a value to be dropped.
* `Expr.effects`, `Stmt.effects` — the effects of a program, in the order of its code.
-/

namespace Lox

/-! ### Bindings -/

/-- A variable, seen from a place in a function. -/
inductive Binding where
  /-- The local in a slot of the function that is so many functions out. -/
  | local (level slot : Nat)
  /-- A global. -/
  | global (name : String)
  deriving DecidableEq, Repr

namespace Binding

/-- The slot of the newest local with a given name. The locals are listed newest first. -/
def newest? (name : String) : List String → Option Nat
  | [] => none
  | first :: older => if first = name then some older.length else newest? name older

/-- The nearest function with a local of a given name, and the slot of this local. The functions
are listed innermost first, each with its locals. -/
def nearest? (name : String) : List (List String) → Option (Nat × Nat)
  | [] => none
  | locals :: around =>
    match newest? name locals with
    | some slot => some (0, slot)
    | none => (nearest? name around).map fun found => (found.1 + 1, found.2)

/-- The variable that a name means. -/
def of (name : String) (scopes : List (List String)) : Binding :=
  match nearest? name scopes with
  | some (level, slot) => .local level slot
  | none => .global name

end Binding

/-! ### Effects -/

/-- What an instruction does with a variable, or with a value to be dropped. -/
inductive Effect where
  /-- A variable is read. -/
  | read (b : Binding)
  /-- A variable is assigned. -/
  | write (b : Binding)
  /-- A global is defined. -/
  | define (name : String)
  /-- A temporary value is dropped. -/
  | discard
  /-- The scope of a local ends. The flag tells whether functions inside mention the local. -/
  | leave (captured : Bool)
  /-- A closure is made of a function, whose code has effects of its own. -/
  | close (body : List Effect)

mutual

/-- Whether functions inside refer to the local in a slot, where the function of this local is
so many functions out. -/
def Effect.captures (level slot : Nat) : Effect → Bool
  | .read b | .write b => 0 < level && b = .local level slot
  | .close body => anyCaptures (level + 1) slot body
  | .define _ | .discard | .leave _ => false

/-- Whether functions inside refer to the local in a slot somewhere among some effects. -/
def anyCaptures (level slot : Nat) : List Effect → Bool
  | [] => false
  | e :: others => e.captures level slot || anyCaptures level slot others

end

namespace Expr

mutual

/-- The effects of an expression. The scopes are those of the function at hand and of the functions
around it, innermost first. -/
def effects (scopes : List (List String)) : Expr → List Effect
  | .literal _ => []
  | .variable name => [.read (Binding.of name scopes)]
  | .assign name value => value.effects scopes ++ [.write (Binding.of name scopes)]
  | .unary _ operand => operand.effects scopes
  | .binary _ left right => left.effects scopes ++ right.effects scopes
  | .both left right | .either left right =>
    left.effects scopes ++ [.discard] ++ right.effects scopes
  | .call callee arguments => callee.effects scopes ++ effectsAll scopes arguments

/-- The effects of expressions one after another. -/
def effectsAll (scopes : List (List String)) : List Expr → List Effect
  | [] => []
  | e :: others => e.effects scopes ++ effectsAll scopes others

end

end Expr

namespace Stmt

/-- The effect of a declaration at its end: a global is defined. -/
def defines (isLocal : Bool) (name : String) : List Effect :=
  if isLocal then [] else [.define name]

mutual

/-- The effects of a statement. The flag tells whether declarations are local. -/
def effects (isLocal : Bool) (own : List String) (around : List (List String)) :
    Stmt → List Effect
  | .expression e => e.effects (own :: around) ++ [.discard]
  | .print e => e.effects (own :: around)
  | .giveBack e => e.effects (own :: around)
  | .variable name initial => initial.effects (own :: around) ++ defines isLocal name
  | .function name parameters body =>
    .close (effectsAll true (parameters.reverse ++ [""])
      (((if isLocal then [name] else []) ++ own) :: around) body) :: defines isLocal name
  | .block body => effectsAll true own around body ++ exits own around body
  | .choice condition yes no => condition.effects (own :: around) ++ [.discard] ++
    yes.effects isLocal own around ++ [.discard] ++ no.effects isLocal own around
  | .loop condition increment body =>
    (condition.elim [] fun e => e.effects (own :: around) ++ [.discard]) ++
    (increment.elim [] fun e => e.effects (own :: around) ++ [.discard]) ++
    body.effects isLocal own around ++ condition.elim [] fun _ => [.discard]

/-- The effects of statements one after another. -/
def effectsAll (isLocal : Bool) (own : List String) (around : List (List String)) :
    List Stmt → List Effect
  | [] => []
  | s :: others => s.effects isLocal own around ++
    effectsAll isLocal (s.scope isLocal ++ own) around others

/-- The effects of the end of a block: its locals are left, newest first. A local may be mentioned
from its own declaration on. -/
def exits (own : List String) (around : List (List String)) : List Stmt → List Effect
  | [] => []
  | s :: others => exits (s.scope true ++ own) around others ++
    (s.scope true).map fun _ => .leave (anyCaptures 0 own.length
      (s.effects true own around ++ effectsAll true (s.scope true ++ own) around others))

end

-- the block has two locals, in the slots behind the parameter, and the inner function assigns the
-- first of them
example : (function "f" ["a"] [.block [.variable "b" (.variable "a"),
      .function "g" [] [.expression (.assign "b" (.variable "c"))]]]).effects false [""] [] =
    [.close [.read (.local 0 1), .close [.read (.global "c"), .write (.local 1 2), .discard],
      .leave false, .leave true], .define "f"] := rfl

end Stmt

/-! ### Captured locals -/

/-- A local is mentioned in one of two parts. -/
theorem anyCaptures_append (level slot : Nat) (first second : List Effect) :
    anyCaptures level slot (first ++ second) =
      (anyCaptures level slot first || anyCaptures level slot second) := by
  induction first with
  | nil => simp [anyCaptures]
  | cons e first ih => simp [anyCaptures, ih, Bool.or_assoc]

/-- Defining a global mentions no local. -/
theorem anyCaptures_defines (level slot : Nat) (isLocal : Bool) (name : String) :
    anyCaptures level slot (Stmt.defines isLocal name) = false := by
  cases isLocal with
  | true => rfl
  | false => rfl

/-- Leaving a block mentions no local. -/
theorem anyCaptures_exits (level slot : Nat) (own : List String) (around : List (List String))
    (ss : List Stmt) : anyCaptures level slot (Stmt.exits own around ss) = false := by
  have hleave : ∀ (captured : Bool) (names : List String),
      anyCaptures level slot (names.map fun _ => Effect.leave captured) = false := by
    intro captured names
    induction names with
    | nil => rfl
    | cons name names ih => rwa [List.map_cons, anyCaptures, Effect.captures, Bool.false_or]
  induction ss generalizing own with
  | nil => rfl
  | cons s others ih => rw [Stmt.exits, anyCaptures_append, ih, hleave, Bool.or_false]

end Lox
