import Lox.Proofs.Syntax.Tree

/-!
# The grammar

Which token lists are programs, and which tree each of them stands for. The levels of
expressions are indexed by precedence: an expression of a level is put together from
operators that bind at least as tightly as that.

* The operators of arithmetic, comparison and equality associate to the left: their left
  operand is of their own level and their right one is tighter.
* `and` and `or` lean to the right, and so does assignment, whose left side is a name.
* An `else` belongs to the nearest `if` that can take it. A statement is therefore marked as
  *open* when an `else` right after it would still find such an `if`, and what stands between
  an `if` and its `else` is closed.

## Main definitions

* `Grammar.Expression`, `Grammar.Statement`, `Grammar.Declaration`.
* `Grammar.Declarations` — whole programs, and the insides of blocks.
-/

namespace Lox.Grammar

mutual

/-- The expressions of a level. -/
inductive Expression : Precedence → List Token → Expr → Prop
  | number {t : Token} {x : Float} : t.kind = .number → Number.read? t.lexeme = some x →
      Expression .primary [t] (.literal (.number x))
  | text {t : Token} {s : String} : t.kind = .string → Compiler.unquote? t.lexeme = some s →
      Expression .primary [t] (.literal (.text s))
  | nil {t : Token} : t.kind = .nilWord → Expression .primary [t] (.literal .nil)
  | true {t : Token} : t.kind = .trueWord → Expression .primary [t] (.literal (.bool true))
  | false {t : Token} : t.kind = .falseWord → Expression .primary [t] (.literal (.bool false))
  | variable {t : Token} : t.kind = .identifier → Expression .primary [t] (.variable t.lexeme)
  | grouping {left right : Token} {ts : List Token} {e : Expr} : left.kind = .leftParen →
      Expression .assignment ts e → right.kind = .rightParen →
        Expression .primary (left :: ts ++ [right]) e
  | call {left right : Token} {ts us : List Token} {callee : Expr} {arguments : List Expr} :
      Expression .call ts callee → left.kind = .leftParen → Arguments us arguments →
        right.kind = .rightParen →
          Expression .call (ts ++ left :: us ++ [right]) (.call callee arguments)
  | unary {t : Token} {op : UnaryOperator} {ts : List Token} {operand : Expr} :
      UnaryOperator.ofToken? t.kind = some op → Expression .unary ts operand →
        Expression .unary (t :: ts) (.unary op operand)
  | binary {t : Token} {op : BinaryOperator} {ts us : List Token} {left right : Expr} :
      Expression op.precedence ts left → BinaryOperator.ofToken? t.kind = some op →
        Expression op.precedence.tighter us right →
          Expression op.precedence (ts ++ t :: us) (.binary op left right)
  | both {t : Token} {ts us : List Token} {left right : Expr} :
      Expression .equality ts left → t.kind = .andWord → Expression .and us right →
        Expression .and (ts ++ t :: us) (.both left right)
  | either {t : Token} {ts us : List Token} {left right : Expr} :
      Expression .and ts left → t.kind = .orWord → Expression .or us right →
        Expression .or (ts ++ t :: us) (.either left right)
  | assign {name equals : Token} {ts : List Token} {value : Expr} : name.kind = .identifier →
      equals.kind = .equal → Expression .assignment ts value →
        Expression .assignment (name :: equals :: ts) (.assign name.lexeme value)
  | tighter {level : Precedence} {ts : List Token} {e : Expr} :
      Expression level.tighter ts e → Expression level ts e

/-- The arguments of a call, separated by commas. -/
inductive Arguments : List Token → List Expr → Prop
  | none : Arguments [] []
  | last {ts : List Token} {e : Expr} : Expression .assignment ts e → Arguments ts [e]
  | more {comma : Token} {ts us : List Token} {e next : Expr} {others : List Expr} :
      Expression .assignment ts e → comma.kind = .comma → Arguments us (next :: others) →
        Arguments (ts ++ comma :: us) (e :: next :: others)

end

/-- The parameters of a function, separated by commas. -/
inductive Parameters : List Token → List String → Prop
  | none : Parameters [] []
  | last {name : Token} : name.kind = .identifier → Parameters [name] [name.lexeme]
  | more {name comma : Token} {ts : List Token} {next : String} {others : List String} :
      name.kind = .identifier → comma.kind = .comma → Parameters ts (next :: others) →
        Parameters (name :: comma :: ts) (name.lexeme :: next :: others)

/-- An expression that ends with a semicolon. -/
inductive Ended : List Token → Expr → Prop
  | intro {ts : List Token} {e : Expr} {semicolon : Token} : Expression .assignment ts e →
      semicolon.kind = .semicolon → Ended (ts ++ [semicolon]) e

/-- The declaration of a variable. -/
inductive VariableDeclaration : List Token → Stmt → Prop
  | bare {word name semicolon : Token} : word.kind = .varWord → name.kind = .identifier →
      semicolon.kind = .semicolon →
        VariableDeclaration [word, name, semicolon] (.variable name.lexeme (.literal .nil))
  | initial {word name equals : Token} {ts : List Token} {e : Expr} : word.kind = .varWord →
      name.kind = .identifier → equals.kind = .equal → Ended ts e →
        VariableDeclaration (word :: name :: equals :: ts) (.variable name.lexeme e)

/-- What a loop does once before its first test. -/
inductive Initializer : List Token → List Stmt → Prop
  | none {semicolon : Token} : semicolon.kind = .semicolon → Initializer [semicolon] []
  | variable {ts : List Token} {s : Stmt} : VariableDeclaration ts s → Initializer ts [s]
  | expression {ts : List Token} {e : Expr} : Ended ts e → Initializer ts [.expression e]

/-- The test of a loop. -/
inductive Condition : List Token → Option Expr → Prop
  | none {semicolon : Token} : semicolon.kind = .semicolon → Condition [semicolon] none
  | some {ts : List Token} {e : Expr} : Ended ts e → Condition ts (some e)

/-- What a loop does after each round, and the parenthesis that ends its clauses. -/
inductive Increment : List Token → Option Expr → Prop
  | none {right : Token} : right.kind = .rightParen → Increment [right] none
  | some {right : Token} {ts : List Token} {e : Expr} : Expression .assignment ts e →
      right.kind = .rightParen → Increment (ts ++ [right]) (some e)

mutual

/-- The statements. The flag tells whether an `else` may follow. -/
inductive Statement : (isOpen : Bool) → List Token → Stmt → Prop
  | expression {ts : List Token} {e : Expr} : Ended ts e → Statement false ts (.expression e)
  | print {word : Token} {ts : List Token} {e : Expr} : word.kind = .printWord → Ended ts e →
      Statement false (word :: ts) (.print e)
  | giveBackNothing {word semicolon : Token} : word.kind = .returnWord →
      semicolon.kind = .semicolon →
        Statement false [word, semicolon] (.giveBack (.literal .nil))
  | giveBack {word : Token} {ts : List Token} {e : Expr} : word.kind = .returnWord →
      Ended ts e → Statement false (word :: ts) (.giveBack e)
  | block {left right : Token} {ts : List Token} {body : List Stmt} : left.kind = .leftBrace →
      Declarations ts body → right.kind = .rightBrace →
        Statement false (left :: ts ++ [right]) (.block body)
  | ifThen {word left right : Token} {cs ts : List Token} {condition : Expr} {yes : Stmt}
      {isOpen : Bool} : word.kind = .ifWord → left.kind = .leftParen →
      Expression .assignment cs condition → right.kind = .rightParen →
      Statement isOpen ts yes →
        Statement true (word :: left :: cs ++ right :: ts) (.choice condition yes (.block []))
  | ifElse {word left right other : Token} {cs ts us : List Token} {condition : Expr}
      {yes no : Stmt} {isOpen : Bool} : word.kind = .ifWord → left.kind = .leftParen →
      Expression .assignment cs condition → right.kind = .rightParen →
      Statement false ts yes → other.kind = .elseWord → Statement isOpen us no →
        Statement isOpen (word :: left :: cs ++ right :: ts ++ other :: us)
          (.choice condition yes no)
  | while {word left right : Token} {cs ts : List Token} {condition : Expr} {body : Stmt}
      {isOpen : Bool} : word.kind = .whileWord → left.kind = .leftParen →
      Expression .assignment cs condition → right.kind = .rightParen →
      Statement isOpen ts body →
        Statement isOpen (word :: left :: cs ++ right :: ts) (.loop (some condition) none body)
  | for {word left : Token} {is cs ns ts : List Token} {initial : List Stmt}
      {condition increment : Option Expr} {body : Stmt} {isOpen : Bool} :
      word.kind = .forWord → left.kind = .leftParen → Initializer is initial →
      Condition cs condition → Increment ns increment → Statement isOpen ts body →
        Statement isOpen (word :: left :: is ++ cs ++ ns ++ ts)
          (.block (initial ++ [.loop condition increment body]))

/-- The declarations. -/
inductive Declaration : List Token → Stmt → Prop
  | statement {ts : List Token} {s : Stmt} {isOpen : Bool} : Statement isOpen ts s →
      Declaration ts s
  | variable {ts : List Token} {s : Stmt} : VariableDeclaration ts s → Declaration ts s
  | function {word name left right brace close : Token} {ps ts : List Token}
      {parameters : List String} {body : List Stmt} : word.kind = .funWord →
      name.kind = .identifier → left.kind = .leftParen → Parameters ps parameters →
      right.kind = .rightParen → brace.kind = .leftBrace → Declarations ts body →
      close.kind = .rightBrace →
        Declaration (word :: name :: left :: ps ++ right :: brace :: ts ++ [close])
          (.function name.lexeme parameters body)

/-- Declarations one after another. -/
inductive Declarations : List Token → List Stmt → Prop
  | nil : Declarations [] []
  | cons {ts us : List Token} {s : Stmt} {others : List Stmt} : Declaration ts s →
      Declarations us others → Declarations (ts ++ us) (s :: others)

end

end Lox.Grammar
