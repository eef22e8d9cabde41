import Lox.Compile.Expression

/-!
# Syntax trees

The trees that programs stand for. Nothing of the layout of a program is left in its tree:
parentheses only steer how a tree is built, and the derived forms of the language are gone.

* A declaration without initializer and a return without value have the value `nil`.
* A conditional without `else` has an empty block there.
* Both kinds of loops are one form, with an optional test and an optional increment. The
  initializer of a loop stands in front of it, in a block around both.
-/

namespace Lox

/-- The value that a literal stands for. -/
inductive Literal where
  | nil
  | bool (b : Bool)
  | number (x : Float)
  | text (s : String)

/-- The operators in front of one operand. -/
inductive UnaryOperator where
  | not | negate
  deriving DecidableEq, Repr

/-- The operators between two operands that are both evaluated. -/
inductive BinaryOperator where
  | equal | notEqual | greater | greaterEqual | less | lessEqual
  | add | subtract | multiply | divide
  deriving DecidableEq, Repr

/-- An expression. -/
inductive Expr where
  | literal (l : Literal)
  | variable (name : String)
  | assign (name : String) (value : Expr)
  | unary (op : UnaryOperator) (operand : Expr)
  | binary (op : BinaryOperator) (left right : Expr)
  | both (left right : Expr)
  | either (left right : Expr)
  | call (callee : Expr) (arguments : List Expr)

/-- A statement or a declaration. -/
inductive Stmt where
  | expression (e : Expr)
  | print (e : Expr)
  | giveBack (e : Expr)
  | variable (name : String) (initial : Expr)
  | function (name : String) (parameters : List String) (body : List Stmt)
  | block (body : List Stmt)
  | choice (condition : Expr) (yes no : Stmt)
  | loop (condition increment : Option Expr) (body : Stmt)

/-! ### Operators -/

namespace UnaryOperator

/-- The operator that a token stands for in front of an operand. -/
def ofToken? : TokenKind → Option UnaryOperator
  | .bang => some .not
  | .minus => some .negate
  | _ => none

/-- The operation of the machine that computes the operator. -/
def code : UnaryOperator → OpCode
  | not => .not
  | negate => .negate

/-- The compiler writes the operation of the operator. -/
theorem unaryCode_eq {kind : TokenKind} {op : UnaryOperator} (h : ofToken? kind = some op) :
    Compiler.unaryCode kind = [op.code] := by
  unfold ofToken? at h
  split at h <;> cases h <;> rfl

end UnaryOperator

namespace BinaryOperator

/-- The operator that a token stands for between two operands. -/
def ofToken? : TokenKind → Option BinaryOperator
  | .equalEqual => some .equal
  | .bangEqual => some .notEqual
  | .greater => some .greater
  | .greaterEqual => some .greaterEqual
  | .less => some .less
  | .lessEqual => some .lessEqual
  | .plus => some .add
  | .minus => some .subtract
  | .star => some .multiply
  | .slash => some .divide
  | _ => none

/-- How tightly the operator binds. -/
def precedence : BinaryOperator → Precedence
  | equal | notEqual => .equality
  | greater | greaterEqual | less | lessEqual => .comparison
  | add | subtract => .term
  | multiply | divide => .factor

/-- The operations of the machine that compute the operator. -/
def code : BinaryOperator → List OpCode
  | equal => [.equal]
  | notEqual => [.equal, .not]
  | greater => [.greater]
  | greaterEqual => [.less, .not]
  | less => [.less]
  | lessEqual => [.greater, .not]
  | add => [.add]
  | subtract => [.subtract]
  | multiply => [.multiply]
  | divide => [.divide]

/-- The compiler writes the operations of the operator. -/
theorem binaryCode_eq {kind : TokenKind} {op : BinaryOperator} (h : ofToken? kind = some op) :
    Compiler.binaryCode kind = op.code := by
  unfold ofToken? at h
  split at h <;> cases h <;> rfl

/-- The compiler gives the token of an operator the precedence of the operator. -/
theorem precedence_eq {kind : TokenKind} {op : BinaryOperator} (h : ofToken? kind = some op) :
    Precedence.ofToken kind = op.precedence := by
  unfold ofToken? at h
  split at h <;> cases h <;> rfl

/-- The tokens of operators are those that the compiler takes for one. -/
theorem ofToken?_isSome {kind : TokenKind} (h : OperatorForm.ofToken? kind = some .binary) :
    ∃ op, ofToken? kind = some op := by
  unfold OperatorForm.ofToken? at h
  split at h <;> first | exact ⟨_, rfl⟩ | cases h

end BinaryOperator

end Lox
