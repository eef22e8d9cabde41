import Mathlib.Algebra.BigOperators.Group.List.Basic
import Mathlib.Algebra.Order.Ring.Int
import Lox.Proofs.Syntax.Derivation

/-!
# Brackets in programs

A program closes all the brackets it opens. Each rule of the grammar opens as many brackets as it
closes, so what is derived from it does, too. One part is off balance: the increment of a loop takes
the parenthesis that ends the clauses of the loop, which the loop itself opened.

## Main definitions

* `TokenKind.surplus` — how many more brackets a token opens than it closes.
* `Grammar.Nonterminal.surplus` — the same for a part of a program.

## Main results

* `Grammar.Derives.sum_surplus` — what is derived from a row is as far from balance as the row.
* `Grammar.Derives.balanced` — a program opens as many brackets as it closes.
-/

namespace Lox

namespace TokenKind

/-- Whether a token opens a bracket. -/
def opens (kind : TokenKind) : Bool := kind == .leftParen || kind == .leftBrace

/-- Whether a token closes a bracket. -/
def closes (kind : TokenKind) : Bool := kind == .rightParen || kind == .rightBrace

/-- How many more brackets a token opens than it closes. -/
def surplus : TokenKind → Int
  | .leftParen | .leftBrace => 1
  | .rightParen | .rightBrace => -1
  | _ => 0

end TokenKind

/-- What tokens open and close, one by one. -/
theorem sum_surplus (kinds : List TokenKind) :
    (kinds.map TokenKind.surplus).sum =
      kinds.countP TokenKind.opens - kinds.countP TokenKind.closes := by
  induction kinds with
  | nil => rfl
  | cons kind kinds ih =>
      rw [List.map_cons, List.sum_cons, ih, List.countP_cons, List.countP_cons]
      cases kind <;> simp [TokenKind.surplus, TokenKind.opens, TokenKind.closes] <;> omega

namespace Grammar

/-- How many more brackets a part opens than it closes. -/
def Nonterminal.surplus : Nonterminal → Int
  | .increment => -1
  | _ => 0

/-- How many more brackets a symbol opens than it closes. -/
def Symbol.surplus : Symbol → Int
  | .token kind => kind.surplus
  | .part n => n.surplus

/-- Every rule is as far from balance as the part it is for. -/
theorem rules_surplus (n : Nonterminal) :
    ∀ rule ∈ rules n, (rule.map Symbol.surplus).sum = n.surplus := by
  cases n with
  | expression level => cases level <;> decide
  | _ => decide

variable {row : List Symbol} {kinds : List TokenKind}

/-- What is derived from a row is as far from balance as the row. -/
theorem Derives.sum_surplus (derives : Derives row kinds) :
    (kinds.map TokenKind.surplus).sum = (row.map Symbol.surplus).sum := by
  induction derives with
  | nil => rfl
  | @token kind _ _ _ ih =>
      rw [List.map_cons, List.map_cons, List.sum_cons, List.sum_cons, ih]
      rfl
  | @part n rule _ _ _ member _ _ ihRule ihOthers =>
      rw [List.map_append, List.sum_append, ihRule, ihOthers, rules_surplus n rule member,
        List.map_cons, List.sum_cons]
      rfl

/-- A program opens as many brackets as it closes. -/
theorem Derives.balanced (derives : Derives [.part .declarations] kinds) :
    kinds.countP TokenKind.opens = kinds.countP TokenKind.closes := by
  have hsum := (Lox.sum_surplus kinds).symm.trans derives.sum_surplus
  have hnone : ([Symbol.part .declarations].map Symbol.surplus).sum = 0 := rfl
  omega

end Grammar

end Lox
