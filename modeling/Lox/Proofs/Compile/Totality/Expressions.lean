import Lox.Proofs.Compile.Steady
import Lox.Proofs.Compile.Totality.Steps

/-!
# Compiling expressions always ends

The parts of an expression stand behind its first token, and every operator and every argument
takes a token, so the budget of steps is never used up. An expression is paid for by its own
tokens.

## Main definitions

* `Reliable` — a compiler of expressions, next to the checked one.

## Main results

* `expressionAt_works` — any expression.
-/

namespace Lox

namespace Compiler

variable {L : Limits} {depth n steps : Nat} {c : Compiler}

/-! ### Operands -/

/-- A compiler of expressions and the checked one, if no more than `n` tokens are to be taken. -/
def Reliable (L : Limits) (n : Nat) (x y : CompileM Unit) : Prop :=
  ∀ ⦃c depth⦄, c.Sound L depth → c.unread ≤ n →
    Works L true 0 depth c (fun _ c' => c.Gains 64 c') (x c) (y c)

section

variable {parse parse' : Precedence → CompileM Unit} {expression expression' : CompileM Unit}
  {least : Precedence}

/-- The text between the quotes is shorter than all of it. -/
theorem utf8ByteSize_unquote {lexeme text : String} (h : unquote? lexeme = some text) :
    text.utf8ByteSize ≤ lexeme.utf8ByteSize := by
  unfold unquote? at h
  split at h
  · rename_i first second others hlexeme
    dsimp only at h
    split at h <;> cases h
    have hsplit := congrArg String.utf8Len
      (List.dropLast_append_getLast (List.cons_ne_nil second others))
    rw [String.utf8Len_append] at hsplit
    rw [String.utf8ByteSize_ofList, ← String.utf8Len_toList lexeme, hlexeme, String.utf8Len_cons]
    omega
  · cases h

theorem variableOperand_works (value : Reliable L n expression expression')
    (sound : c.Sound L depth) (left : c.unread ≤ n) (mayAssign : Bool) :
    Works L true (122 + c.previous.lexeme.utf8ByteSize) depth c Any
      (checker.variableOperand expression mayAssign c)
        (variableOperand expression' mayAssign c) := by
  rw [show 122 + c.previous.lexeme.utf8ByteSize = 112 + c.previous.lexeme.utf8ByteSize +
    10 by omega]
  refine .read (.bind (resolve_works sound _) fun target c₁ h₁ _ =>
    .check (.ite (fun _ => ?_) fun _ => emitWith_works h₁.sound _ _))
  show Works L true (0 + (0 + 10)) _ _ _ _ _
  exact (advance_works h₁.sound).bind fun _ c₂ h₂ _ =>
    (value h₂.sound ((h₂.unread.trans h₁.unread).trans left)).bind fun _ _ h₃ _ =>
      emitWith_works h₃.sound _ _

theorem numberOperand_works (sound : c.Sound L depth) :
    Works L true 26 depth c Any (checker.numberOperand c) (numberOperand c) := by
  refine .read ?_
  cases Number.read? c.previous.lexeme with
  | some x => exact emitConstant_works sound fun _ heq => by cases heq
  | none => exact (complain_works sound _).mono (Nat.zero_le _)

/-- A string token that has been consumed has a text, unless it cannot be read. -/
theorem stringOperand_works (sound : c.Sound L depth) (kind : c.previous.kind = .string) :
    Works L true (122 + c.previous.lexeme.utf8ByteSize) depth c Any (checker.stringOperand c)
      (stringOperand c) := by
  have hmem : c.previous ∈ c.window := List.mem_cons_of_mem _ (List.mem_cons_self ..)
  refine .read ?_
  cases htext : unquote? c.previous.lexeme with
  | some text =>
      have hshort := utf8ByteSize_unquote htext
      refine ((intern_works sound text).bind fun h _ follows live =>
        emitConstant_works follows.sound fun g heq => ?_).mono (by omega)
      cases heq
      exact live
  | none =>
      rcases sound.readable _ hmem with hreadable | hbad
      · obtain ⟨text, hsome⟩ := hreadable kind
        cases htext.symm.trans hsome
      · exact .unreadable hbad

/-- An operand whose first token has just been consumed. -/
theorem operand_works (parts : ∀ least, 0 < least.rank → Reliable L n (parse least) (parse' least))
    (sound : c.Sound L depth) (left : c.unread ≤ n) (mayAssign : Bool) {form : OperandForm}
    (hform : OperandForm.ofToken? c.previous.kind = some form) :
    Works L true (122 + c.previous.lexeme.utf8ByteSize) depth c Any
      (checker.operand parse mayAssign form c) (operand parse' mayAssign form c) := by
  cases form with
  | grouping =>
      exact ((parts .assignment (by decide) sound left).bind fun _ _ h _ =>
        expect_works h.sound _ _).mono (by omega)
  | negation =>
      have hlength : (unaryCode c.previous.kind).length ≤ 1 := by
        cases c.previous.kind <;> decide
      exact .read (((parts .unary (by decide) sound left).bind fun _ _ h _ =>
        forM_works h.sound _ fun op _ h => emit_works h op).mono (by omega))
  | «variable» => exact variableOperand_works (parts .assignment (by decide)) sound left mayAssign
  | string => exact stringOperand_works sound (ofToken?_eq_string hform)
  | number => exact (numberOperand_works sound).mono (by omega)
  | literal =>
      have hlength : (literalCode c.previous.kind).length ≤ 1 := by
        cases c.previous.kind <;> decide
      exact .read ((forM_works sound _ fun op _ h => emit_works h op).mono (by omega))

/-! ### Operators -/

theorem countArgument_works (sound : c.Sound L depth) (count : Nat) :
    Works L true 0 depth c Any (countArgument count c) (countArgument count c) :=
  .ite (fun _ => complain_works sound _) fun _ => .pure sound _ trivial

/-- The arguments of a call. Every comma pays for the argument behind it. -/
theorem arguments_works (value : Reliable L n expression expression') (sound : c.Sound L depth)
    (left : c.unread ≤ n) (enough : c.unread < steps) (count : Nat) :
    Works L true 0 depth c Any (checker.arguments expression steps count c)
      (arguments expression' steps count c) := by
  induction steps generalizing c count with
  | zero => exact absurd enough (Nat.not_lt_zero _)
  | succ steps ih =>
      rw [arguments_succ]
      exact (value sound left).bind fun _ c₁ h₁ _ =>
        (countArgument_works h₁.sound count).bind fun _ c₂ h₂ _ =>
          .accept h₂.sound (by decide)
            (fun c₃ h₃ hless hgain => by
              have hle := h₂.unread.trans h₁.unread
              exact ((ih h₃.sound (by omega) (by omega) _).repaid h₃ hgain (Nat.zero_le _)).any)
            fun _ => .pure h₂.sound _ trivial

theorem callOperator_works (value : Reliable L n expression expression') (sound : c.Sound L depth)
    (left : c.unread ≤ n) (enough : c.unread < steps) :
    Works L true 10 depth c Any (checker.callOperator expression steps c)
      (callOperator expression' steps c) := by
  have hrest : ∀ (count : Nat) {c : Compiler}, c.Sound L depth → Works L true (0 + 10) depth c Any
      ((do
        expect .rightParen .parenAfterArguments
        emitCall count) c)
      ((do
        expect .rightParen .parenAfterArguments
        emitCall count) c) := fun count _ sound =>
    (expect_works sound _ _).bind fun _ _ h _ => emitWith_works h.sound _ _
  refine .check (.ite (fun _ => ?_) fun _ => ?_)
  · exact hrest 0 sound
  · exact ((arguments_works value sound left enough 0).bind fun count _ h _ =>
      hrest count h.sound).mono (by omega)

theorem andOperator_works (right : Reliable L n (parse .and) (parse' .and))
    (sound : c.Sound L depth) (left : c.unread ≤ n) :
    Works L true 20 depth c Any (checker.andOperator parse c) (andOperator parse' c) := by
  show Works L true (15 + (5 + (0 + 0))) _ _ _ _ _
  refine (emitJump_works sound _).bind fun toEnd c₁ h₁ hend =>
    (emit_works h₁.sound _).bind fun _ c₂ h₂ _ =>
      (right h₂.sound ((h₂.unread.trans h₁.unread).trans left)).bind fun _ c₃ h₃ _ =>
        patchJump_works h₃.sound ?_
  have := h₂.code
  have := h₃.code
  omega

theorem orOperator_works (right : Reliable L n (parse .or) (parse' .or))
    (sound : c.Sound L depth) (left : c.unread ≤ n) :
    Works L true 35 depth c Any (checker.orOperator parse c) (orOperator parse' c) := by
  show Works L true (15 + (15 + (0 + (5 + (0 + 0))))) _ _ _ _ _
  refine (emitJump_works sound _).bind fun toRight c₁ h₁ hright =>
    (emitJump_works h₁.sound _).bind fun toEnd c₂ h₂ hend => .bind (patchJump_works h₂.sound ?_)
      fun _ c₃ h₃ _ => (emit_works h₃.sound _).bind fun _ c₄ h₄ _ =>
        .bind (right h₄.sound ?_) fun _ c₅ h₅ _ => patchJump_works h₅.sound ?_
  · have := h₂.code
    omega
  · exact h₄.unread.trans (h₃.unread.trans (h₂.unread.trans (h₁.unread.trans left)))
  · have := h₃.code
    have := h₄.code
    have := h₅.code
    omega

theorem operator_works (form : OperatorForm)
    (parts : ∀ least, 0 < least.rank → Reliable L n (parse least) (parse' least))
    (sound : c.Sound L depth) (left : c.unread ≤ n) (enough : c.unread < steps) :
    Works L true 35 depth c Any (checker.operator parse steps form c)
      (operator parse' steps form c) := by
  cases form with
  | call =>
      exact (callOperator_works (parts .assignment (by decide)) sound left enough).mono (by omega)
  | binary =>
      have hlength : (binaryCode c.previous.kind).length ≤ 2 := by
        cases c.previous.kind <;> decide
      exact .read (((parts _ (rank_tighter_pos _) sound left).bind fun _ _ h _ =>
        forM_works h.sound _ fun op _ h => emit_works h op).mono (by omega))
  | and => exact (andOperator_works (parts .and (by decide)) sound left).mono (by omega)
  | or => exact orOperator_works (parts .or (by decide)) sound left

/-- The operators of an expression. Each of them pays for itself. -/
theorem operators_works (tight : 0 < least.rank)
    (parts : ∀ least, 0 < least.rank → Reliable L n (parse least) (parse' least))
    (sound : c.Sound L depth) (left : c.unread ≤ n) (enough : c.unread < steps) :
    Works L true 0 depth c Any (checker.operators parse least steps c)
      (operators parse' least steps c) := by
  induction steps generalizing c with
  | zero => exact absurd enough (Nat.not_lt_zero _)
  | succ steps ih =>
      refine .read (.ite (fun hbinds => ?_) fun _ => .pure sound _ trivial)
      -- the end of the input binds nothing
      have hend : c.current.kind ≠ .endOfInput := fun hend => by
        rw [hend] at hbinds
        exact absurd (Nat.lt_of_lt_of_le tight hbinds) (Nat.lt_irrefl 0)
      refine .advance sound fun c₁ h₁ _ hgains => ?_
      obtain ⟨hless, hgain⟩ := hgains (unread_pos hend)
      refine (Works.repaid (?_ : Works L true 35 depth c₁ Any _ _) h₁ hgain
        (Token.le_price (by omega))).any
      refine .read ?_
      cases OperatorForm.ofToken? c₁.previous.kind with
      | some form =>
          exact (operator_works form parts h₁.sound (by omega) (by omega)).bind fun _ c₂ h₂ _ =>
            have := h₂.unread
            ih h₂.sound (by omega) (by omega)
      | none => exact (ih h₁.sound (by omega) (by omega)).mono (Nat.zero_le _)

/-! ### Any expression -/

theorem expressionWith_works (tight : 0 < least.rank)
    (parts : ∀ m < n, ∀ least, 0 < least.rank → Reliable L m (parse least) (parse' least))
    (enough : n ≤ steps) :
    Reliable L n (checker.expressionWith parse steps least)
      (expressionWith parse' steps least) := by
  intro c depth sound left
  refine .advance sound fun c₁ h₁ hprevious hgains => .read ?_
  cases hform : OperandForm.ofToken? c₁.previous.kind with
  | none =>
      refine (complain_works h₁.sound _).rebase h₁.worth fun _ c₂ h₂ _ =>
        ⟨h₁.trans h₂, fun hpos => ?_⟩
      obtain ⟨hless, hgain⟩ := hgains hpos
      have := h₂.unread
      have := h₂.worth
      unfold Token.price at hgain
      omega
  | some form =>
      have hend : c.current.kind ≠ .endOfInput := by
        rw [← hprevious]
        rintro hend
        rw [hend] at hform
        cases hform
      obtain ⟨hless, hgain⟩ := hgains (unread_pos hend)
      have hparts := parts c₁.unread (by omega)
      have hrest : ∀ {c : Compiler}, c.Sound L depth → Works L true 0 depth c Any
          ((do
            if decide (least.rank ≤ Precedence.assignment.rank) && (← check .equal) then
              advance
              complain .invalidAssignmentTarget) c)
          ((do
            if decide (least.rank ≤ Precedence.assignment.rank) && (← check .equal) then
              advance
              complain .invalidAssignmentTarget) c) := fun sound =>
        .check (.ite (fun _ => (advance_works sound).bind fun _ _ h _ => complain_works h.sound _)
          fun _ => .pure sound _ trivial)
      have hoperators : ∀ {c : Compiler}, c.Sound L depth → c.unread ≤ c₁.unread →
          Works L true 0 depth c Any (checker.operators parse least steps c)
            (operators parse' least steps c) := fun sound hle =>
        operators_works tight hparts sound hle (by omega)
      have hall := (operand_works hparts h₁.sound (Nat.le_refl _)
        (decide (least.rank ≤ Precedence.assignment.rank)) hform).bind fun _ c₂ h₂ _ =>
          (hoperators h₂.sound h₂.unread).bind fun _ c₃ h₃ _ => hrest h₃.sound
      refine (hall.repaid h₁ hgain (Token.le_price (by omega))).imp fun _ c₂ _ hpaid _ => ?_
      obtain ⟨-, hunread, hworth⟩ := hpaid
      unfold Token.price at hworth
      omega

theorem expressionAt_works (tight : 0 < least.rank) (enough : n < steps) :
    Reliable L n (checker.expressionAt steps least) (expressionAt steps least) := by
  induction steps generalizing n least with
  | zero => exact absurd enough (Nat.not_lt_zero n)
  | succ steps ih =>
      exact expressionWith_works tight (fun m hm least hleast => ih hleast (by omega)) (by omega)

theorem expression_works (enough : n < steps) :
    Reliable L n (checker.expression steps) (Compiler.expression steps) :=
  expressionAt_works (by decide) enough

end

end Compiler

end Lox
