import Lox.Proofs.Syntax.Binding
import Lox.Compile.Statement
import Mathlib.Data.List.Dedup

/-!
# The rules that the grammar does not express

A program that can be derived may still break a rule of the language, or go beyond a limit of its
code. Which rules there are is told here of trees alone: the names in scope at each place follow
from the declarations around it, and so do the numbers that operands of one and two bytes have to
hold. The code of a part is known up to its operands, so its size is known as well.

* A value is given back inside functions only.
* The names of one scope are distinct. The parameters of a function are in the scope of its body.
* The initializer of a local mentions no variable of this name.
* A function has at most 255 parameters and a call has at most 255 arguments.
* A function has at most 256 constants, 256 locals at a time and 256 captured variables.
* A jump leads at most 65535 bytes far.

## Main definitions

* `Expr.size`, `Stmt.size` — how many bytes the code of a part takes.
* `Expr.constants`, `Stmt.constants` — how many constants it adds to its function.
* `outsideAll` — the variables of functions around that some effects are about.
* `Expr.Lawful`, `Stmt.Lawful`, `LawfulProgram` — the rules.
-/

namespace Lox

/-! ### Variables of functions around -/

/-- The local of a function around that a binding is: how many functions out, and its slot. -/
def Binding.outside : Binding → List (Nat × Nat)
  | .local (level + 1) slot => [(level + 1, slot)]
  | .local 0 _ | .global _ => []

/-- A variable of a function around, seen from the next function out. A local of that function is
nothing that it captures. -/
def outward? : Nat × Nat → Option (Nat × Nat)
  | (level + 2, slot) => some (level + 1, slot)
  | _ => none

mutual

/-- The variables of functions around that an effect is about. Those of an inner function are
captured by the functions in between. -/
def Effect.outside : Effect → List (Nat × Nat)
  | .read b | .write b => b.outside
  | .close body => (outsideAll body).filterMap outward?
  | .define _ | .discard | .leave _ => []

/-- The variables of functions around that some effects are about. -/
def outsideAll : List Effect → List (Nat × Nat)
  | [] => []
  | e :: others => e.outside ++ outsideAll others

end

/-- The variables that a function captures, each of them once. The scopes are those around the
function. -/
def Stmt.captured (parameters : List String) (body : List Stmt) (around : List (List String)) :
    List (Nat × Nat) :=
  (outsideAll (effectsAll true (parameters.reverse ++ [""]) around body)).dedup

/-! ### Constants -/

/-- A global takes a constant for its name wherever it is mentioned. -/
def Binding.constants : Binding → Nat
  | .local _ _ => 0
  | .global _ => 1

namespace Expr

mutual

/-- How many constants an expression takes: the numbers, the strings and the names of globals. -/
def constants (scopes : List (List String)) : Expr → Nat
  | .literal (.number _) | .literal (.text _) => 1
  | .literal .nil | .literal (.bool _) => 0
  | .variable name => (Binding.of name scopes).constants
  | .assign name value => (Binding.of name scopes).constants + value.constants scopes
  | .unary _ operand => operand.constants scopes
  | .binary _ left right | .both left right | .either left right =>
    left.constants scopes + right.constants scopes
  | .call callee arguments => callee.constants scopes + constantsAll scopes arguments

/-- How many constants some expressions take. -/
def constantsAll (scopes : List (List String)) : List Expr → Nat
  | [] => 0
  | e :: others => e.constants scopes + constantsAll scopes others

end

mutual

/-- How many bytes the code of an expression takes. -/
def size : Expr → Nat
  | .literal (.number _) | .literal (.text _) => 2
  | .literal .nil | .literal (.bool _) => 1
  | .variable _ => 2
  | .assign _ value => value.size + 2
  | .unary _ operand => operand.size + 1
  | .binary op left right => left.size + right.size + op.code.length
  | .both left right => left.size + 4 + right.size
  | .either left right => left.size + 7 + right.size
  | .call callee arguments => callee.size + sizeAll arguments + 2

/-- How many bytes the code of some expressions takes. -/
def sizeAll : List Expr → Nat
  | [] => 0
  | e :: others => e.size + sizeAll others

end

mutual

/-- An expression keeps the rules: its calls have few arguments, and its jumps are short. -/
def Lawful : Expr → Prop
  | .literal _ | .variable _ => True
  | .assign _ value => value.Lawful
  | .unary _ operand => operand.Lawful
  | .binary _ left right => left.Lawful ∧ right.Lawful
  | .both left right | .either left right =>
    left.Lawful ∧ right.Lawful ∧ right.size + 1 ≤ Compiler.maxJump
  | .call callee arguments =>
    callee.Lawful ∧ LawfulAll arguments ∧ arguments.length ≤ Draft.maxArity

/-- Some expressions keep the rules. -/
def LawfulAll : List Expr → Prop
  | [] => True
  | e :: others => e.Lawful ∧ LawfulAll others

end

end Expr

namespace Stmt

/-- The names that declarations one after another add to their scope. -/
def names (ss : List Stmt) : List String := ss.flatMap (scope true)

mutual

/-- How many constants a statement takes. A function is a constant, and so is the name of a
global where it is declared. -/
def constants (isLocal : Bool) (own : List String) (around : List (List String)) : Stmt → Nat
  | .expression e | .print e | .giveBack e => e.constants (own :: around)
  | .variable _ initial => initial.constants (own :: around) + if isLocal then 0 else 1
  | .function _ _ _ => 1 + if isLocal then 0 else 1
  | .block body => constantsAll true own around body
  | .choice condition yes no => condition.constants (own :: around) +
    yes.constants isLocal own around + no.constants isLocal own around
  | .loop condition increment body => condition.elim 0 (Expr.constants (own :: around)) +
    increment.elim 0 (Expr.constants (own :: around)) + body.constants isLocal own around

/-- How many constants statements one after another take. -/
def constantsAll (isLocal : Bool) (own : List String) (around : List (List String)) :
    List Stmt → Nat
  | [] => 0
  | s :: others => s.constants isLocal own around +
    constantsAll isLocal (s.scope isLocal ++ own) around others

end

mutual

/-- How many bytes the code of a statement takes. A closure tells of each captured variable in two
bytes, and the locals of a block leave the stack one by one. -/
def size (isLocal : Bool) (own : List String) (around : List (List String)) : Stmt → Nat
  | .expression e | .print e | .giveBack e => e.size + 1
  | .variable _ initial => initial.size + if isLocal then 0 else 2
  | .function name parameters body =>
    2 + 2 * (captured parameters body
      (((if isLocal then [name] else []) ++ own) :: around)).length + if isLocal then 0 else 2
  | .block body => sizeAll true own around body + (names body).length
  | .choice condition yes no => condition.size + 4 + yes.size isLocal own around + 4 +
    no.size isLocal own around
  | .loop condition increment body => condition.elim 0 (·.size + 5) +
    increment.elim 0 (·.size + 7) + body.size isLocal own around + 3

/-- How many bytes the code of statements one after another takes. -/
def sizeAll (isLocal : Bool) (own : List String) (around : List (List String)) : List Stmt → Nat
  | [] => 0
  | s :: others => s.size isLocal own around +
    sizeAll isLocal (s.scope isLocal ++ own) around others

end

/-- A new local finds a slot, and its initializer does not mention it. -/
def Fresh (own : List String) (name : String) (initial : Expr) : Prop :=
  own.length < Draft.maxLocals ∧ initial.Mentions (· ≠ name)

/-- The jumps of a loop are short. The test leads behind the loop, the increment leads back to the
test, and the body leads back to the increment, or else to the test. -/
def Reachable (condition increment : Option Expr) (body : Nat) : Prop :=
  (∀ _ ∈ condition, increment.elim 0 (·.size + 7) + body + 4 ≤ Compiler.maxJump) ∧
  (∀ e ∈ increment, condition.elim 0 (·.size + 4) + e.size + 7 ≤ Compiler.maxJump) ∧
  increment.elim (condition.elim 0 (·.size + 4)) (·.size + 4) + body + 3 ≤ Compiler.maxJump

/-- What holds of the parameters and the body of a function, apart from the rules for its
statements: the names are distinct, and nothing is beyond its limit. -/
structure Bounded (parameters : List String) (body : List Stmt) (around : List (List String)) :
    Prop where
  distinct : (parameters ++ names body).Nodup
  arity : parameters.length ≤ Draft.maxArity
  constants : constantsAll true (parameters.reverse ++ [""]) around body ≤ Chunk.maxConstants
  captures : (captured parameters body around).length ≤ Draft.maxCaptures

mutual

/-- A statement keeps the rules. The flag tells whether declarations are local, and the names of the
locals in scope are those of the function at hand, newest first, and of the functions around it. -/
def Lawful (isLocal : Bool) (own : List String) (around : List (List String)) : Stmt → Prop
  | .expression e | .print e => e.Lawful
  | .giveBack e => around ≠ [] ∧ e.Lawful
  | .variable name initial => initial.Lawful ∧ (isLocal = true → Fresh own name initial)
  | .function name parameters body =>
    (isLocal = true → own.length < Draft.maxLocals) ∧
    Bounded parameters body (((if isLocal then [name] else []) ++ own) :: around) ∧
    LawfulAll true (parameters.reverse ++ [""])
      (((if isLocal then [name] else []) ++ own) :: around) body
  | .block body => (names body).Nodup ∧ LawfulAll true own around body
  | .choice condition yes no => condition.Lawful ∧
    yes.Lawful isLocal own around ∧ yes.size isLocal own around + 4 ≤ Compiler.maxJump ∧
    no.Lawful isLocal own around ∧ no.size isLocal own around + 1 ≤ Compiler.maxJump
  | .loop condition increment body => (∀ e ∈ condition, e.Lawful) ∧ (∀ e ∈ increment, e.Lawful) ∧
    body.Lawful isLocal own around ∧ Reachable condition increment (body.size isLocal own around)

/-- Statements one after another keep the rules. -/
def LawfulAll (isLocal : Bool) (own : List String) (around : List (List String)) :
    List Stmt → Prop
  | [] => True
  | s :: others => s.Lawful isLocal own around ∧
    LawfulAll isLocal (s.scope isLocal ++ own) around others

end

/-- A program keeps the rules. Its declarations are global outside of blocks. -/
structure LawfulProgram (program : List Stmt) : Prop where
  rules : LawfulAll false [""] [] program
  constants : constantsAll false [""] [] program ≤ Chunk.maxConstants

end Stmt

/-! ### What effects are about -/

theorem outsideAll_append (first second : List Effect) :
    outsideAll (first ++ second) = outsideAll first ++ outsideAll second := by
  induction first with
  | nil => rfl
  | cons e first ih => simp only [List.cons_append, outsideAll, ih, List.append_assoc]

/-- Defining a global is about no function around. -/
theorem outsideAll_defines (isLocal : Bool) (name : String) :
    outsideAll (Stmt.defines isLocal name) = [] := by
  cases isLocal with
  | true => rfl
  | false => rfl

/-- Leaving a block is about no function around. -/
theorem outsideAll_exits (own : List String) (around : List (List String)) (ss : List Stmt) :
    outsideAll (Stmt.exits own around ss) = [] := by
  have hleave : ∀ (captured : Bool) (names : List String),
      outsideAll (names.map fun _ => Effect.leave captured) = [] := by
    intro captured names
    induction names with
    | nil => rfl
    | cons name names ih => rwa [List.map_cons, outsideAll, Effect.outside, List.nil_append]
  induction ss generalizing own with
  | nil => rfl
  | cons s others ih => rw [Stmt.exits, outsideAll_append, ih, hleave, List.append_nil]

/-- The variable that a name means in the innermost function. -/
theorem Binding.of_cons (name : String) (own : List String) (around : List (List String)) :
    Binding.of name (own :: around) =
      match Binding.newest? name own with
      | some slot => .local 0 slot
      | none => match Binding.nearest? name around with
        | some (level, slot) => .local (level + 1) slot
        | none => .global name := by
  rw [Binding.of, Binding.nearest?]
  cases Binding.newest? name own with
  | some slot => rfl
  | none => cases Binding.nearest? name around <;> rfl

/-- A new local does not change what other names mean. -/
theorem Binding.of_fresh {x name : String} (ne : x ≠ name) (own : List String)
    (around : List (List String)) :
    Binding.of x ((name :: own) :: around) = Binding.of x (own :: around) := by
  simp [Binding.of, Binding.nearest?, Binding.newest?, Ne.symm ne]

namespace Expr

variable {scopes : List (List String)} {wanted : List (Nat × Nat)} {name : String}
  {own : List String} {around : List (List String)}

mutual

/-- The names in an expression mean variables that its effects are about. -/
theorem mentions_of_outside : {e : Expr} → outsideAll (e.effects scopes) ⊆ wanted →
    e.Mentions fun name => (Binding.of name scopes).outside ⊆ wanted
  | .literal _, _ => trivial
  | .variable _, sub => by
      simp only [effects, outsideAll, Effect.outside, List.append_nil] at sub
      exact sub
  | .assign _ _, sub => by
      simp only [effects, outsideAll_append, outsideAll, Effect.outside, List.append_nil,
        List.append_subset] at sub
      exact ⟨sub.2, mentions_of_outside sub.1⟩
  | .unary _ operand, sub => mentions_of_outside (e := operand) sub
  | .binary _ _ _, sub => by
      simp only [effects, outsideAll_append, List.append_subset] at sub
      exact ⟨mentions_of_outside sub.1, mentions_of_outside sub.2⟩
  | .both _ _, sub | .either _ _, sub => by
      simp only [effects, outsideAll_append, List.append_subset] at sub
      exact ⟨mentions_of_outside sub.1.1, mentions_of_outside sub.2⟩
  | .call _ _, sub => by
      simp only [effects, outsideAll_append, List.append_subset] at sub
      exact ⟨mentions_of_outside sub.1, mentionsAll_of_outside sub.2⟩

/-- The names in some expressions mean variables that their effects are about. -/
theorem mentionsAll_of_outside : {es : List Expr} → outsideAll (effectsAll scopes es) ⊆ wanted →
    MentionsAll (fun name => (Binding.of name scopes).outside ⊆ wanted) es
  | [], _ => trivial
  | _ :: _, sub => by
      simp only [effectsAll, outsideAll_append, List.append_subset] at sub
      exact ⟨mentions_of_outside sub.1, mentionsAll_of_outside sub.2⟩

end

mutual

/-- A local that an expression does not mention makes no difference to its constants. -/
theorem constants_fresh : {e : Expr} → e.Mentions (· ≠ name) →
    e.constants ((name :: own) :: around) = e.constants (own :: around)
  | .literal l, _ => by cases l <;> rfl
  | .variable _, ne => by rw [constants, constants, Binding.of_fresh ne]
  | .assign _ _, ⟨ne, value⟩ => by
      rw [constants, constants, Binding.of_fresh ne, constants_fresh value]
  | .unary _ operand, ne => constants_fresh (e := operand) ne
  | .binary _ _ _, ⟨left, right⟩ | .both _ _, ⟨left, right⟩ | .either _ _, ⟨left, right⟩ => by
      rw [constants, constants, constants_fresh left, constants_fresh right]
  | .call _ _, ⟨callee, arguments⟩ => by
      rw [constants, constants, constants_fresh callee, constantsAll_fresh arguments]

/-- A local that some expressions do not mention makes no difference to their constants. -/
theorem constantsAll_fresh : {es : List Expr} → MentionsAll (· ≠ name) es →
    constantsAll ((name :: own) :: around) es = constantsAll (own :: around) es
  | [], _ => rfl
  | _ :: _, ⟨first, others⟩ => by
      rw [constantsAll, constantsAll, constants_fresh first, constantsAll_fresh others]

end

end Expr

/-! ### The functions that there are -/

/-- A function with a local of a name is one of those in question. -/
theorem Binding.nearest?_lt {name : String} {scopes : List (List String)} {level slot : Nat}
    (found : Binding.nearest? name scopes = some (level, slot)) : level < scopes.length := by
  induction scopes generalizing level with
  | nil => cases found
  | cons locals around ih =>
      unfold Binding.nearest? at found
      split at found
      · obtain ⟨rfl, -⟩ := Prod.mk.inj (Option.some.inj found)
        exact Nat.succ_pos _
      · obtain ⟨⟨further, slot'⟩, hfurther, heq⟩ := Option.map_eq_some_iff.mp found
        obtain ⟨rfl, rfl⟩ := Prod.mk.inj heq
        exact Nat.succ_lt_succ (ih hfurther)

/-- A variable of a function around, and not of the function at hand. -/
def Outside (around : List (List String)) (v : Nat × Nat) : Prop := 0 < v.1 ∧ v.1 ≤ around.length

/-- A name means a variable of one of the functions around, if it means one of them. -/
theorem Binding.outside_of {name : String} {own : List String} {around : List (List String)}
    {v : Nat × Nat} (mem : v ∈ (Binding.of name (own :: around)).outside) : Outside around v := by
  unfold Binding.of at mem
  split at mem
  · rename_i level slot hfound
    cases level with
    | zero => cases mem
    | succ level =>
        obtain rfl := List.mem_singleton.mp mem
        exact ⟨Nat.succ_pos _, Nat.lt_succ_iff.mp (nearest?_lt hfound)⟩
  · cases mem

namespace Expr

variable {own : List String} {around : List (List String)}

mutual

theorem outside_effects : {e : Expr} →
    ∀ v ∈ outsideAll (e.effects (own :: around)), Outside around v
  | .literal _, _, mem => by cases mem
  | .variable _, v, mem => by
      simp only [effects, outsideAll, Effect.outside, List.append_nil] at mem
      exact Binding.outside_of mem
  | .assign _ value, v, mem => by
      simp only [effects, outsideAll_append, outsideAll, Effect.outside, List.append_nil,
        List.mem_append] at mem
      exact mem.elim (outside_effects v) Binding.outside_of
  | .unary _ operand, v, mem => outside_effects (e := operand) v mem
  | .binary _ _ _, v, mem => by
      simp only [effects, outsideAll_append, List.mem_append] at mem
      exact mem.elim (outside_effects v) (outside_effects v)
  | .both _ _, v, mem | .either _ _, v, mem => by
      simp only [effects, outsideAll_append, List.mem_append] at mem
      rcases mem with (hleft | hdiscard) | hright
      · exact outside_effects v hleft
      · cases hdiscard
      · exact outside_effects v hright
  | .call _ _, v, mem => by
      simp only [effects, outsideAll_append, List.mem_append] at mem
      exact mem.elim (outside_effects v) (outside_effectsAll v)

theorem outside_effectsAll : {es : List Expr} →
    ∀ v ∈ outsideAll (effectsAll (own :: around) es), Outside around v
  | [], _, mem => by cases mem
  | _ :: _, v, mem => by
      simp only [effectsAll, outsideAll_append, List.mem_append] at mem
      exact mem.elim (outside_effects v) (outside_effectsAll v)

end

end Expr

namespace Stmt

mutual

/-- A statement is about functions around it only. -/
theorem outside_effects {isLocal : Bool} {own : List String} {around : List (List String)} :
    {s : Stmt} → ∀ v ∈ outsideAll (s.effects isLocal own around), Outside around v
  | .expression e, v, mem => by
      simp only [effects, outsideAll_append, List.mem_append] at mem
      exact mem.elim (Expr.outside_effects v) nofun
  | .print e, v, mem | .giveBack e, v, mem => Expr.outside_effects (e := e) v mem
  | .variable _ _, v, mem => by
      simp only [effects, outsideAll_append, outsideAll_defines, List.append_nil] at mem
      exact Expr.outside_effects v mem
  | .function _ _ _, v, mem => by
      simp only [effects, outsideAll, Effect.outside, outsideAll_defines, List.append_nil] at mem
      obtain ⟨w, hmem, hv⟩ := List.mem_filterMap.mp mem
      obtain ⟨-, hle⟩ := outside_effectsAll w hmem
      unfold outward? at hv
      split at hv
      · cases hv
        exact ⟨Nat.succ_pos _, Nat.le_of_succ_le_succ hle⟩
      · cases hv
  | .block _, v, mem => by
      simp only [effects, outsideAll_append, outsideAll_exits, List.append_nil] at mem
      exact outside_effectsAll v mem
  | .choice _ _ _, v, mem => by
      simp only [effects, outsideAll_append, outsideAll, Effect.outside, List.append_nil,
        List.mem_append] at mem
      rcases mem with (hcondition | hyes) | hno
      · exact Expr.outside_effects v hcondition
      · exact outside_effects v hyes
      · exact outside_effects v hno
  | .loop condition increment _, v, mem => by
      have hclause : ∀ {clause : Option Expr}, v ∈ outsideAll (clause.elim [] fun e =>
          e.effects (own :: around) ++ [.discard]) → Outside around v := fun {clause} hmem => by
        cases clause with
        | none => cases hmem
        | some e =>
            rw [Option.elim_some, outsideAll_append, List.mem_append] at hmem
            exact hmem.elim (Expr.outside_effects v) nofun
      simp only [effects, outsideAll_append, List.mem_append] at mem
      rcases mem with ((hcondition | hincrement) | hbody) | hdiscard
      · exact hclause hcondition
      · exact hclause hincrement
      · exact outside_effects v hbody
      · cases condition <;> cases hdiscard

/-- Statements are about functions around them only. -/
theorem outside_effectsAll {isLocal : Bool} {own : List String} {around : List (List String)} :
    {ss : List Stmt} → ∀ v ∈ outsideAll (effectsAll isLocal own around ss), Outside around v
  | [], _, mem => by cases mem
  | _ :: _, v, mem => by
      simp only [effectsAll, outsideAll_append, List.mem_append] at mem
      exact mem.elim (outside_effects v) (outside_effectsAll v)

end

/-- A program is about no function around it. -/
theorem outsideAll_program (own : List String) (program : List Stmt) :
    outsideAll (effectsAll false own [] program) = [] := by
  refine List.eq_nil_iff_forall_not_mem.mpr fun v hv => ?_
  obtain ⟨hpos, hle⟩ := outside_effectsAll v hv
  exact absurd hle (Nat.not_le_of_lt hpos)

end Stmt

end Lox
