import Lox.Proofs.Compile.Abreast.Scopes

/-!
# Compilers that keep abreast: expressions

No expression ends with the input of the piece, since something has to follow it. So the compilers
keep abreast in an expression, or the one of the piece has drained its input. They need not have the
same budget: the input of the whole is longer.

## Main results

* `operand_meets`, `operator_meets` — one form.
* `expression_pace` — any expression.
-/

namespace Lox.Compiler

/-- Steps of the two compilers that lead from any place to the same place. -/
def Paced (S : Setting) (x y : CompileM Unit) : Prop :=
  ∀ around p pre, Pace S around p p false pre x y any

variable {S : Setting} {around : List (Spot × Sheet)} {p : Spot} {s : Sheet} {c d : Compiler}
  {pre : Sheet.Fact} {parse parse' : Precedence → CompileM Unit}
  {value value' : CompileM Unit}

/-! ### Operands -/

/-- The code of an operator and of a word has no operands. -/
theorem unaryCode_plain (kind : TokenKind) :
    ∀ op ∈ unaryCode kind, op.width = 0 ∧ op ≠ .giveBack := by
  cases kind <;> decide

theorem binaryCode_plain (kind : TokenKind) :
    ∀ op ∈ binaryCode kind, op.width = 0 ∧ op ≠ .giveBack := by
  cases kind <;> decide

theorem literalCode_plain (kind : TokenKind) :
    ∀ op ∈ literalCode kind, op.width = 0 ∧ op ≠ .giveBack := by
  cases kind <;> decide

/-- Only an identifier is a variable. -/
theorem kind_of_variable {kind : TokenKind} (form : OperandForm.ofToken? kind = some .variable) :
    kind = .identifier := by
  cases kind <;> simp [OperandForm.ofToken?] at form ⊢

/-- What is done with a name, once it is known what it refers to. -/
theorem mention_pace (inner : Paced S value value') (mayAssign : Bool) {target target' : Reference}
    (matching : ∀ s, pre.holds s → (target.matching (S.at around) target').holds s) :
    Pace S around p p false pre
      (do
        if mayAssign && (← check .equal) then
          advance
          value
          emitWith target.write.1 target.write.2
        else emitWith target.read.1 target.read.2)
      (do
        if mayAssign && (← check .equal) then
          advance
          value'
          emitWith target'.write.1 target'.write.2
        else emitWith target'.read.1 target'.read.2) any :=
  (check_pace .equal).agreed fun _ => .ite
    (fun _ => advance_pace.next ((inner _ _ _).next (emitWrite_pace matching)))
    fun _ => emitRead_pace matching

/-- A variable, or an assignment to it. -/
theorem variableOperand_meets (inner : Paced S value value') (mayAssign : Bool)
    (abreast : Abreast S around p s c d) (hpre : pre.holds s)
    (kind : c.previous.kind = .identifier) :
    Meets S around p false any s (variableOperand value mayAssign c)
      (variableOperand value' mayAssign d) := by
  have hnamed := abreast.worded c.previous (List.mem_cons_self ..) kind
  unfold variableOperand
  rw [bind_of_ok (get_apply _), bind_of_ok (get_apply _), abreast.previous.lexeme]
  exact ((resolve_pace hnamed).bind fun target target' =>
    mention_pace inner mayAssign fun _ h => h.2).meets s c d abreast hpre

/-- An operand whose first token has just been consumed. -/
theorem operand_meets (parts : ∀ least, Paced S (parse least) (parse' least)) (mayAssign : Bool)
    {form : OperandForm} (abreast : Abreast S around p s c d) (hpre : pre.holds s)
    (starts : OperandForm.ofToken? c.previous.kind = some form) :
    Meets S around p false any s (operand parse mayAssign form c)
      (operand parse' mayAssign form d) := by
  have hkind := abreast.previous.kind
  have hlexeme := abreast.previous.lexeme
  cases form with
  | grouping =>
      exact ((parts _ _ _ _).next (expect_pace _ (by decide))).meets s c d abreast hpre
  | negation =>
      dsimp only [operand]
      rw [bind_of_ok (get_apply _), bind_of_ok (get_apply _), hkind]
      exact ((parts _ _ _ _).next (emits_pace (unaryCode_plain _))).meets s c d abreast hpre
  | «variable» =>
      exact variableOperand_meets (parts _) mayAssign abreast hpre (kind_of_variable starts)
  | string =>
      dsimp only [operand, stringOperand]
      rw [bind_of_ok (get_apply _), bind_of_ok (get_apply _), hlexeme]
      cases unquote? c.previous.lexeme with
      | some text => exact (emitText_pace text).meets s c d abreast hpre
      | none => exact (Pace.throw_left (.throw _)).meets s c d abreast hpre
  | number =>
      dsimp only [operand, numberOperand]
      rw [bind_of_ok (get_apply _), bind_of_ok (get_apply _), hlexeme]
      cases Number.read? c.previous.lexeme with
      | some x => exact (emitNumber_pace x).meets s c d abreast hpre
      | none => exact (complain_pace _ _).meets s c d abreast hpre
  | literal =>
      dsimp only [operand]
      rw [bind_of_ok (get_apply _), bind_of_ok (get_apply _), hkind]
      exact (emits_pace (literalCode_plain _)).meets s c d abreast hpre

/-! ### Operators -/

theorem arguments_pace (inner : Paced S value value') (steps steps' count : Nat) :
    Pace S around p p false pre (arguments value steps count) (arguments value' steps' count)
      same := by
  have hleft : Reports true value := (inner around p pre).left
  have hright : Reports true value' := (inner around p pre).right
  induction steps generalizing steps' count with
  | zero => exact .throw_left (Reports.throughout.arguments hright count)
  | succ steps ih =>
      cases steps' with
      | zero => exact .throw_right (Reports.throughout.arguments hleft count)
      | succ steps' =>
          have hmore : Pace S around p p false pre
              (do if ← accept .comma then arguments value steps (count + 1) else return count + 1)
              (do if ← accept .comma then arguments value' steps' (count + 1) else return count + 1)
              same :=
            (accept_pace .comma).agreed fun _ => .ite (fun _ => ih _ _) fun _ =>
              .pure fun _ _ => rfl
          exact (inner _ _ _).next (.ite (fun _ => (complain_pace p _).next hmore)
            fun _ => hmore)

/-- A call. -/
theorem callOperator_pace (inner : Paced S value value') (steps steps' : Nat) :
    Pace S around p p false pre (callOperator value steps) (callOperator value' steps') any := by
  have hrest : ∀ count, Pace S around p p false pre
      (do
        expect .rightParen .parenAfterArguments
        emitWith .call (UInt8.ofNat (min count Draft.maxArity)))
      (do
        expect .rightParen .parenAfterArguments
        emitWith .call (UInt8.ofNat (min count Draft.maxArity))) any := fun count =>
    (expect_pace _ (by decide)).next (emitWith_pace rfl rfl fun h => by cases h)
  exact (check_pace .rightParen).agreed fun _ => .ite
    (fun _ => (show Pace S around p p false pre _ _ same from .pure fun _ _ => rfl).agreed hrest)
    fun _ => (arguments_pace inner steps steps' 0).agreed hrest

theorem andOperator_pace (parts : ∀ least, Paced S (parse least) (parse' least)) :
    Pace S around p p false pre (andOperator parse) (andOperator parse') any :=
  (emitJump_pace rfl).bind fun _ _ => (emit_pace rfl fun h => by cases h).next
    ((parts _ _ _ _).next (patchJump_pace fun _ h => h.2))

theorem orOperator_pace (parts : ∀ least, Paced S (parse least) (parse' least)) :
    Pace S around p p false pre (orOperator parse) (orOperator parse') any := by
  refine (emitJump_pace rfl).bind fun _ _ => (emitJump_pace rfl).bind fun _ _ => ?_
  refine Pace.next (patchJump_pace fun _ h => h.1.2) ?_
  exact (emit_pace rfl fun h => by cases h).next
    ((parts _ _ _ _).next (patchJump_pace fun _ h => h.2))

/-- An operator whose token has just been consumed. -/
theorem operator_meets (parts : ∀ least, Paced S (parse least) (parse' least)) (steps steps' : Nat)
    (form : OperatorForm) (abreast : Abreast S around p s c d) (hpre : pre.holds s) :
    Meets S around p false any s (operator parse steps form c) (operator parse' steps' form d) := by
  cases form with
  | call => exact (callOperator_pace (parts _) steps steps').meets s c d abreast hpre
  | binary =>
      dsimp only [operator]
      rw [bind_of_ok (get_apply _), bind_of_ok (get_apply _), abreast.previous.kind]
      exact ((parts _ _ _ _).next (emits_pace (binaryCode_plain _))).meets s c d abreast hpre
  | and => exact (andOperator_pace parts).meets s c d abreast hpre
  | or => exact (orOperator_pace parts).meets s c d abreast hpre

theorem operators_pace (parts : ∀ least, Paced S (parse least) (parse' least)) (least : Precedence)
    (steps steps' : Nat) :
    Pace S around p p false pre (operators parse least steps)
      (operators parse' least steps') any := by
  have hleft : ∀ least, Reports true (parse least) := fun least => (parts least around p pre).left
  have hright : ∀ least, Reports true (parse' least) :=
    fun least => (parts least around p pre).right
  induction steps generalizing steps' with
  | zero => exact .throw_left (Reports.throughout.operatorsAt hright least)
  | succ steps ih =>
      cases steps' with
      | zero => exact .throw_right (Reports.throughout.operatorsAt hleft least)
      | succ steps' =>
          refine .running (Reports.throughout.operatorsAt hleft least)
            (Reports.throughout.operatorsAt hright least)
            fun s c d abreast hpre real => ?_
          unfold operators
          rw [bind_of_ok (get_apply _), bind_of_ok (get_apply _), (abreast.current real).kind]
          refine (Pace.ite (fun _ => advance_pace.next (.read ?_ (fun _ _ => ⟨rfl, rfl⟩) ?_))
            fun _ => .pure fun _ _ => trivial).meets s c d abreast hpre
          · intro c
            cases OperatorForm.ofToken? c.previous.kind with
            | some form =>
                exact ⟨.bind (Reports.throughout.operator hleft form) fun _ =>
                  Reports.throughout.operatorsAt hleft least,
                  .bind (Reports.throughout.operator hright form) fun _ =>
                    Reports.throughout.operatorsAt hright least⟩
            | none => exact ⟨Reports.throughout.operatorsAt hleft least,
              Reports.throughout.operatorsAt hright least⟩
          · intro s c d abreast hpre
            rw [abreast.previous.kind]
            cases OperatorForm.ofToken? c.previous.kind with
            | some form =>
                refine (operator_meets parts _ _ form abreast hpre).bind
                  (fun _ => Reports.throughout.operatorsAt hleft least)
                    (fun _ => Reports.throughout.operatorsAt hright least)
                  (.inr (.inl rfl)) fun _ c _ d s' hgrows habreast _ => ?_
                exact (ih steps').meets s' c d habreast (pre.stays s s' hgrows hpre)
            | none => exact (ih steps').meets s c d abreast hpre

/-! ### Any expression -/

/-- The end of an expression that may be an assignment: none follows. -/
theorem noAssignment_pace (mayAssign : Bool) :
    Pace S around p p false pre
      (do if mayAssign && (← check .equal) then
            advance
            complain .invalidAssignmentTarget)
      (do if mayAssign && (← check .equal) then
            advance
            complain .invalidAssignmentTarget) any :=
  (check_pace .equal).agreed fun _ => .ite (fun _ => advance_pace.next (complain_pace _ _))
    fun _ => .pure fun _ _ => trivial

theorem expressionWith_pace (parts : ∀ least, Paced S (parse least) (parse' least))
    (steps steps' : Nat) (least : Precedence) :
    Pace S around p p false pre (expressionWith parse steps least)
      (expressionWith parse' steps' least) any := by
  have hleft : ∀ least, Reports true (parse least) := fun least => (parts least around p pre).left
  have hright : ∀ least, Reports true (parse' least) :=
    fun least => (parts least around p pre).right
  have hend : ∀ mayAssign, Reports true (do
      if mayAssign && (← check .equal) then
        advance
        complain .invalidAssignmentTarget) := fun _ =>
    .bind (Reports.throughout.check _) fun _ =>
      .ite (.bind Reports.throughout.advance fun _ => Reports.throughout.report _) (.pure _)
  refine ⟨Reports.throughout.expressionWith hleft least,
    Reports.throughout.expressionWith hright least, ?_⟩
  refine (advance_pace.next (.read ?_ (fun _ _ => ⟨rfl, rfl⟩) ?_)).meets
  · intro c
    cases OperandForm.ofToken? c.previous.kind with
    | none => exact ⟨Reports.throughout.report _, Reports.throughout.report _⟩
    | some form =>
        exact ⟨.bind (Reports.throughout.operand hleft _ _) fun _ =>
          .bind (Reports.throughout.operatorsAt hleft least)
            fun _ => hend _,
          .bind (Reports.throughout.operand hright _ _) fun _ =>
            .bind (Reports.throughout.operatorsAt hright least)
            fun _ => hend _⟩
  · intro s c d abreast hpre
    rw [abreast.previous.kind]
    cases hform : OperandForm.ofToken? c.previous.kind with
    | none => exact (complain_pace _ _).meets s c d abreast hpre
    | some form =>
        refine (operand_meets parts _ abreast hpre hform).bind
          (fun _ => .bind (Reports.throughout.operatorsAt hleft least) fun _ => hend _)
          (fun _ => .bind (Reports.throughout.operatorsAt hright least) fun _ => hend _)
          (.inr (.inl rfl)) fun _ c _ d s' hgrows habreast _ => ?_
        exact ((operators_pace parts least steps steps').next (noAssignment_pace _)).meets s' c d
          habreast (pre.stays s s' hgrows hpre)

theorem expressionAt_pace (steps steps' : Nat) (least : Precedence) :
    Paced S (expressionAt steps least) (expressionAt steps' least) := by
  induction steps generalizing steps' least with
  | zero => exact fun _ _ _ => .throw_left (Reports.throughout.expressionAt _ _)
  | succ steps ih =>
      cases steps' with
      | zero => exact fun _ _ _ => .throw_right (Reports.throughout.expressionAt _ _)
      | succ steps' =>
          exact fun _ _ _ => expressionWith_pace (ih steps') (steps + 1) (steps' + 1) least

theorem expression_pace (steps steps' : Nat) : Paced S (expression steps) (expression steps') :=
  expressionAt_pace steps steps' .assignment

end Lox.Compiler
