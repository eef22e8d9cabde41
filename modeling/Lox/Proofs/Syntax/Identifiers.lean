import Lox.Proofs.Syntax.Grammar
import Lox.Proofs.Syntax.Mentions

/-!
# Variables are identifiers

The variables that the tree of a program mentions are identifiers among its tokens. So what holds of
all identifiers holds of all variables.

## Main results

* `expression_mentions`, `declarations_mention`.
-/

namespace Lox.Grammar

variable {p : String → Prop} {t : Token} {ts us : List Token}

/-- The identifiers among some tokens have a property. -/
def Identifies (p : String → Prop) (ts : List Token) : Prop :=
  ∀ t ∈ ts, t.kind = .identifier → p t.lexeme

namespace Identifies

theorem left (all : Identifies p (ts ++ us)) : Identifies p ts :=
  fun t ht => all t (List.mem_append_left _ ht)

theorem right (all : Identifies p (ts ++ us)) : Identifies p us :=
  fun t ht => all t (List.mem_append_right _ ht)

theorem head (all : Identifies p (t :: ts)) (kind : t.kind = .identifier) : p t.lexeme :=
  all t (List.mem_cons_self ..) kind

theorem tail (all : Identifies p (t :: ts)) : Identifies p ts :=
  fun t ht => all t (List.mem_cons_of_mem _ ht)

end Identifies

/-! ### Expressions -/

mutual

/-- The variables of an expression are identifiers. -/
theorem expression_mentions {level : Precedence} {ts : List Token} {e : Expr} :
    Expression level ts e → Identifies p ts → e.Mentions p
  | .number _ _, _ | .text _ _, _ | .nil _, _ | .true _, _ | .false _, _ => by
      rw [Expr.Mentions]
      trivial
  | .variable kind, all => by
      rw [Expr.Mentions]
      exact all.head kind
  | .grouping _ inside _, all => expression_mentions inside all.tail.left
  | .call callee _ arguments _, all => by
      rw [Expr.Mentions]
      exact ⟨expression_mentions callee all.left.left,
        arguments_mention arguments all.left.right.tail⟩
  | .unary _ operand, all => by
      rw [Expr.Mentions]
      exact expression_mentions operand all.tail
  | .binary left _ right, all => by
      rw [Expr.Mentions]
      exact ⟨expression_mentions left all.left, expression_mentions right all.right.tail⟩
  | .both left _ right, all | .either left _ right, all => by
      rw [Expr.Mentions]
      exact ⟨expression_mentions left all.left, expression_mentions right all.right.tail⟩
  | .assign kind _ value, all => by
      rw [Expr.Mentions]
      exact ⟨all.head kind, expression_mentions value all.tail.tail⟩
  | .tighter inside, all => expression_mentions inside all

/-- The variables of arguments are identifiers. -/
theorem arguments_mention {ts : List Token} {es : List Expr} :
    Arguments ts es → Identifies p ts → Expr.MentionsAll p es
  | .none, _ => by
      rw [Expr.MentionsAll]
      trivial
  | .last inside, all => by
      rw [Expr.MentionsAll, Expr.MentionsAll]
      exact ⟨expression_mentions inside all, trivial⟩
  | .more inside _ others, all => by
      rw [Expr.MentionsAll]
      exact ⟨expression_mentions inside all.left, arguments_mention others all.right.tail⟩

end

/-- The variables of an expression that ends with a semicolon are identifiers. -/
theorem ended_mentions {e : Expr} (ended : Ended ts e) (all : Identifies p ts) : e.Mentions p := by
  cases ended with
  | intro inside => exact expression_mentions inside all.left

/-! ### Statements -/

variable {isLocal : Bool} {own around : List String}

/-- The variables of the declaration of a variable are identifiers. -/
theorem variable_mentions {s : Stmt} (parsed : VariableDeclaration ts s) (all : Identifies p ts) :
    s.Mentions (fun _ _ => p) isLocal own around := by
  cases parsed with
  | bare =>
      rw [Stmt.Mentions, Expr.Mentions]
      trivial
  | initial _ _ _ ended =>
      rw [Stmt.Mentions]
      exact ended_mentions ended all.tail.tail.tail

/-- The variables of the test of a loop are identifiers. -/
theorem condition_mentions {condition : Option Expr} (parsed : Condition ts condition)
    (all : Identifies p ts) : ∀ e ∈ condition, e.Mentions p := by
  cases parsed with
  | none => simp
  | some ended => simpa using ended_mentions ended all

/-- The variables of the increment of a loop are identifiers. -/
theorem increment_mentions {increment : Option Expr} (parsed : Increment ts increment)
    (all : Identifies p ts) : ∀ e ∈ increment, e.Mentions p := by
  cases parsed with
  | none => simp
  | some inside => simpa using expression_mentions inside all.left

mutual

/-- The variables of a statement are identifiers. -/
theorem statement_mentions {isOpen : Bool} {ts : List Token} {s : Stmt} {isLocal : Bool}
    {own around : List String} :
    Statement isOpen ts s → Identifies p ts → s.Mentions (fun _ _ => p) isLocal own around
  | .expression ended, all => by
      rw [Stmt.Mentions]
      exact ended_mentions ended all
  | .print _ ended, all | .giveBack _ ended, all => by
      rw [Stmt.Mentions]
      exact ended_mentions ended all.tail
  | .giveBackNothing _ _, _ => by
      rw [Stmt.Mentions, Expr.Mentions]
      trivial
  | .block _ body _, all => by
      rw [Stmt.Mentions]
      exact declarations_mention body all.tail.left
  | .ifThen _ _ condition _ yes, all => by
      rw [Stmt.Mentions, Stmt.Mentions, Stmt.MentionsAll]
      exact ⟨expression_mentions condition all.tail.tail.left,
        statement_mentions yes all.tail.tail.right.tail, trivial⟩
  | .ifElse _ _ condition _ yes _ no, all => by
      rw [Stmt.Mentions]
      exact ⟨expression_mentions condition all.left.left.tail.tail,
        statement_mentions yes all.left.right.tail, statement_mentions no all.right.tail⟩
  | .while _ _ condition _ body, all => by
      rw [Stmt.Mentions]
      exact ⟨by simpa using expression_mentions condition all.left.tail.tail, by simp,
        statement_mentions body all.right.tail⟩
  | @Statement.for _ _ _ _ _ _ initial condition increment body _ _ _ first test step round,
    all => by
      have hloop : ∀ {own : List String}, (Stmt.loop condition increment body).Mentions
        (fun _ _ => p)
          true own around := by
        intro own
        rw [Stmt.Mentions]
        exact ⟨condition_mentions test all.left.left.right, increment_mentions step all.left.right,
          statement_mentions round all.right⟩
      have hfirst := all.left.left.left.tail.tail
      rw [Stmt.Mentions]
      cases first with
      | none =>
          rw [List.nil_append, Stmt.MentionsAll, Stmt.MentionsAll]
          exact ⟨hloop, trivial⟩
      | «variable» parsed =>
          rw [List.singleton_append, Stmt.MentionsAll, Stmt.MentionsAll, Stmt.MentionsAll]
          exact ⟨variable_mentions parsed hfirst, hloop, trivial⟩
      | expression ended =>
          rw [List.singleton_append, Stmt.MentionsAll, Stmt.Mentions,
            Stmt.MentionsAll, Stmt.MentionsAll]
          exact ⟨ended_mentions ended hfirst, hloop, trivial⟩

/-- The variables of a declaration are identifiers. -/
theorem declaration_mentions {ts : List Token} {s : Stmt} {isLocal : Bool}
    {own around : List String} :
    Declaration ts s → Identifies p ts → s.Mentions (fun _ _ => p) isLocal own around
  | .statement parsed, all => statement_mentions parsed all
  | .variable parsed, all => variable_mentions parsed all
  | .function _ _ _ _ _ _ body _, all => by
      rw [Stmt.Mentions]
      exact declarations_mention body all.left.right.tail.tail

/-- The variables of declarations are identifiers. -/
theorem declarations_mention {ts : List Token} {ss : List Stmt} {isLocal : Bool}
    {own around : List String} :
    Declarations ts ss → Identifies p ts → Stmt.MentionsAll (fun _ _ => p) isLocal own around ss
  | .nil, _ => by
      rw [Stmt.MentionsAll]
      trivial
  | .cons first others, all => by
      rw [Stmt.MentionsAll]
      exact ⟨declaration_mentions first all.left, declarations_mention others all.right⟩

end

end Lox.Grammar
