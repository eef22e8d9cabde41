import Lox.Proofs.Compile.Abreast.Expressions
import Lox.Proofs.Compile.Abreast.Functions

/-!
# Compilers that keep abreast: statements

The input of the piece may end behind a statement. No word that is missing then is one that follows:
the only statement that may go on is a choice, and what follows the piece does not start with the
word for its other branch.

## Main results

* `ifStatement_pace`, `whileStatement_pace`, `forStatement_pace` — control flow.
* `block_pace` — declarations inside braces.
* `statementAt_declarationAt_pace` — any statement and any declaration.
-/

namespace Lox

/-- Two answers of which neither is there, or that are related. -/
def Sheet.Fact.option {α : Type} (f : α → α → Sheet.Fact) (a b : Option α) : Sheet.Fact where
  holds s := Option.Rel (fun x y => (f x y).holds s) a b
  stays s s' grows holds := by
    cases holds with
    | none => exact .none
    | some h => exact .some ((f _ _).stays s s' grows h)

namespace Compiler

/-- Steps of the two compilers that may stand at the end of a piece. -/
def Closing (S : Setting) (x y : CompileM Unit) : Prop :=
  ∀ around k pre, Pace S around ⟨k, 1⟩ ⟨k, 1⟩ true pre x y any

variable {S : Setting} {around : List (Spot × Sheet)} {p : Spot} {k : Nat} {closes : Bool}
  {pre : Sheet.Fact} {value value' inner inner' statement statement' : CompileM Unit}

/-! ### Simple statements -/

/-- A token and an instruction behind an expression. -/
theorem ending_pace {kind : TokenKind} (what : Expectation) {op : OpCode}
    (real : kind ≠ .endOfInput) (plain : op.width = 0) (inside : op = .giveBack → around ≠ []) :
    Pace S around p p closes pre
      (do
        expect kind what
        emit op)
      (do
        expect kind what
        emit op) any :=
  (expect_pace what real).next (emit_pace plain inside)

theorem ending_hungry {kind : TokenKind} (what : Expectation) (op : OpCode)
    (real : kind ≠ .endOfInput) :
    Hungry (do
      expect kind what
      emit op) :=
  (expect_hungry what real).bind fun _ => Reports.throughout.emit op

theorem printStatement_pace (parts : Paced S value value') :
    Pace S around p p closes pre (printStatement value) (printStatement value') any :=
  (parts _ _ _).nextInto (ending_hungry _ _ (by decide))
    (ending_pace _ (by decide) rfl fun h => by cases h)

theorem expressionStatement_pace (parts : Paced S value value') :
    Pace S around p p closes pre (expressionStatement value) (expressionStatement value') any :=
  (parts _ _ _).nextInto (ending_hungry _ _ (by decide))
    (ending_pace _ (by decide) rfl fun h => by cases h)

theorem expressionStatement_hungry (reports : Reports true value) :
    Hungry (expressionStatement value) :=
  .after reports fun _ => ending_hungry _ _ (by decide)

/-- The script does not return. -/
theorem returnStatement_pace (parts : Paced S value value') :
    Pace S around p p closes pre (returnStatement value) (returnStatement value') any := by
  have hleft : Reports true value := (parts around p pre).left
  have hright : Reports true value' := (parts around p pre).right
  refine ⟨Reports.throughout.returnStatement hleft, Reports.throughout.returnStatement hright,
    fun s c d abreast hpre => ?_⟩
  unfold returnStatement
  rw [bind_of_ok (get_apply _), bind_of_ok (get_apply _), abreast.draft.isScript, abreast.isScript]
  have hrest : around ≠ [] → Pace S around p p closes pre
      (do
        if ← accept .semicolon then emitReturn
        else
          value
          expect .semicolon .semicolonAfterReturnValue
          emit .giveBack)
      (do
        if ← accept .semicolon then emitReturn
        else
          value'
          expect .semicolon .semicolonAfterReturnValue
          emit .giveBack) any := fun inside =>
    accept_into (by decide) (.after hleft fun _ => ending_hungry _ _ (by decide)) fun _ =>
      .ite (fun _ => emitReturn_pace _ _ inside) fun _ => (parts _ _ _).nextInto
        (ending_hungry _ _ (by decide)) (ending_pace _ (by decide) rfl fun _ => inside)
  cases around with
  | nil =>
      intro u c' u' d' run _ quiet _
      obtain ⟨_, mid, hcomplain, hrest⟩ := bind_eq_ok_iff.mp run
      refine absurd (Reports.quiet ?_ hrest quiet) (not_quiet_complain hcomplain)
      exact .bind (Reports.throughout.accept _) fun _ => .ite Reports.throughout.emitReturn
        (.bind hleft fun _ => .bind (Reports.throughout.expect _ _) fun _ =>
          Reports.throughout.emit _)
  | cons first others => exact (hrest (List.cons_ne_nil _ _)).meets s c d abreast hpre

/-- The declaration of a variable. -/
theorem varDeclaration_pace (parts : Paced S value value') :
    Pace S around ⟨k, 1⟩ ⟨k, 1⟩ closes pre (varDeclaration value) (varDeclaration value') any := by
  refine (variableName_pace _).bind fun i j => ?_
  have hhungry : Hungry (do
      expect .semicolon .semicolonAfterVariable
      defineVariable i) :=
    (expect_hungry _ (by decide)).bind fun _ => Reports.throughout.defineVariable _
  have hrest : Pace S around (Spot.declared k) ⟨k, 1⟩ closes
      (pre.and (.given (k = 0) (.pooled (S.at around) i j)))
      (do
        expect .semicolon .semicolonAfterVariable
        defineVariable i)
      (do
        expect .semicolon .semicolonAfterVariable
        defineVariable j) any := by
    refine Pace.next (expect_pace _ (by decide)) ?_
    exact defineVariable_pace fun _ h => h.2
  exact accept_into (by decide) (.after (Reports.throughout.emit _) fun _ => hhungry) fun _ =>
    .ite (fun _ => (parts _ _ _).nextInto hhungry hrest)
      fun _ => (emit_pace rfl fun h => by cases h).next hrest

/-! ### Control flow -/

theorem ifStatement_pace (parts : Paced S value value') (branch : Closing S statement statement') :
    Pace S around ⟨k, 1⟩ ⟨k, 1⟩ true pre (ifStatement value statement)
      (ifStatement value' statement') any := by
  have hbranch : Reports true statement := (branch around k pre).left
  refine (expect_pace _ (by decide)).next ((parts _ _ _).nextInto ?_ ?_)
  · refine (expect_hungry _ (by decide)).bind fun _ =>
      .bind (Reports.throughout.emitJump _) fun _ =>
      .bind (Reports.throughout.emit _) fun _ => .bind hbranch fun _ =>
        .bind (Reports.throughout.emitJump _) fun _ =>
        .bind (Reports.throughout.patchJump _) fun _ => .bind (Reports.throughout.emit _) fun _ =>
          .bind (Reports.throughout.accept _) fun _ =>
            .ite (.bind hbranch fun _ => Reports.throughout.patchJump _)
            (Reports.throughout.patchJump _)
  · refine (expect_pace _ (by decide)).next ((emitJump_pace rfl).bind fun i j => ?_)
    refine (emit_pace rfl fun h => by cases h).next ((branch _ _ _).next ?_)
    refine (emitJump_pace rfl).bind fun i' j' => ?_
    have hend : Pace S around ⟨k, 1⟩ ⟨k, 1⟩ true
        ((pre.and (.hole (S.at around) i j)).and (.hole (S.at around) i' j'))
        (patchJump i') (patchJump j') any := patchJump_pace fun _ h => h.2
    refine Pace.next (patchJump_pace fun _ h => h.1.2) ?_
    exact (emit_pace rfl fun h => by cases h).next <| acceptElse_pace.agreed fun _ =>
      .ite (fun _ => (branch _ _ _).next hend) fun _ => hend

theorem whileStatement_pace (parts : Paced S value value')
    (body : Closing S statement statement') :
    Pace S around ⟨k, 1⟩ ⟨k, 1⟩ true pre (whileStatement value statement)
      (whileStatement value' statement') any := by
  have hbody : Reports true statement := (body around k pre).left
  refine codeSize_pace.bind fun start start' => (expect_pace _ (by decide)).next
    ((parts _ _ _).nextInto ?_ ?_)
  · exact (expect_hungry _ (by decide)).bind fun _ => .bind (Reports.throughout.emitJump _) fun _ =>
      .bind (Reports.throughout.emit _) fun _ => .bind hbody fun _ =>
        .bind (Reports.throughout.emitLoop _) fun _ =>
        .bind (Reports.throughout.patchJump _) fun _ => Reports.throughout.emit _
  · refine (expect_pace _ (by decide)).next ((emitJump_pace rfl).bind fun i j => ?_)
    refine (emit_pace rfl fun h => by cases h).next ((body _ _ _).next ?_)
    refine Pace.next (emitLoop_pace fun _ h => h.1.2) ?_
    refine Pace.next (patchJump_pace fun _ h => h.2) ?_
    exact emit_pace rfl fun h => by cases h

theorem forInitializer_pace (parts : Paced S value value') :
    Pace S around ⟨k, 1⟩ ⟨k, 1⟩ closes pre (forInitializer value) (forInitializer value') any :=
  have hhungry := expressionStatement_hungry (parts around ⟨k, 1⟩ pre).left
  accept_into (by decide) (accept_hungry (by decide) hhungry) fun _ =>
    .ite (fun _ => .pure fun _ _ => trivial) fun _ => accept_into (by decide) hhungry fun _ =>
      .ite (fun _ => varDeclaration_pace parts) fun _ => expressionStatement_pace parts

/-- The test of a loop. The jump out of it is at the same place of the code. -/
theorem forCondition_pace (parts : Paced S value value') :
    Pace S around p p closes pre (forCondition value) (forCondition value')
      (.option (.hole (S.at around))) := by
  have hhungry : Hungry (do
      expect .semicolon .semicolonAfterLoopCondition
      let toEnd ← emitJump .jumpIfFalse
      emit .pop
      return some toEnd) :=
    (expect_hungry _ (by decide)).bind fun _ => .bind (Reports.throughout.emitJump _) fun _ =>
      .bind (Reports.throughout.emit _) fun _ => .pure _
  refine accept_into (by decide) (.after (parts around p pre).left fun _ => hhungry) fun _ =>
    .ite (fun _ => .pure fun _ _ => .none) fun _ => (parts _ _ _).nextInto hhungry ?_
  refine (expect_pace _ (by decide)).next ((emitJump_pace rfl).bind fun _ _ => ?_)
  exact (emit_pace rfl fun h => by cases h).next (.pure fun _ h => .some h.2)

/-- What a loop does after each round, and the place where its body goes back to. -/
theorem forIncrement_pace (parts : Paced S value value') {start start' : Nat}
    (target : ∀ s, pre.holds s → start' = (S.at around).code.length + start) :
    Pace S around p p closes pre (forIncrement value start) (forIncrement value' start')
      fun i j => .plain (j = (S.at around).code.length + i) := by
  have hleft : Reports true value := (parts around p pre).left
  have hhungry : ∀ (toBody increment : Nat), Hungry (do
      emit .pop
      expect .rightParen .parenAfterForClauses
      emitLoop start
      patchJump toBody
      return increment) := fun _ _ =>
    .after (Reports.throughout.emit _) fun _ => (expect_hungry _ (by decide)).bind fun _ =>
      .bind (Reports.throughout.emitLoop _) fun _ =>
        .bind (Reports.throughout.patchJump _) fun _ => .pure _
  refine accept_into (by decide) (.after (Reports.throughout.emitJump _) fun _ =>
    .after Reports.throughout.codeSize
    fun _ => .after hleft fun _ => hhungry _ _) fun _ => .ite (fun _ => .pure target) fun _ => ?_
  refine (emitJump_pace rfl).bind fun toBody toBody' => codeSize_pace.bind fun inc inc' => ?_
  refine (parts _ _ _).nextInto (hhungry _ _) ((emit_pace rfl fun h => by cases h).next ?_)
  refine (expect_pace _ (by decide)).next ?_
  refine Pace.next (emitLoop_pace fun s h => target s h.1.1) ?_
  refine Pace.next (patchJump_pace fun _ h => h.1.2) ?_
  exact .pure fun _ h => h.2

/-- The end of a loop with three clauses. -/
def forEnd (toEnd : Option Nat) : CompileM Unit := do
  match toEnd with
  | none => pure ()
  | some toEnd =>
    patchJump toEnd
    emit .pop
  closeScope

theorem forEnd_reports (toEnd : Option Nat) : Reports true (forEnd toEnd) := by
  cases toEnd with
  | none => exact Reports.throughout.closeScope
  | some toEnd =>
      exact .bind (Reports.throughout.patchJump _) fun _ =>
        .bind (Reports.throughout.emit _) fun _ => Reports.throughout.closeScope

theorem forEnd_pace {toEnd toEnd' : Option Nat}
    (hole : ∀ s, pre.holds s → (Sheet.Fact.option (.hole (S.at around)) toEnd toEnd').holds s) :
    Pace S around ⟨k + 1, 1⟩ ⟨k, 1⟩ closes pre (forEnd toEnd) (forEnd toEnd') any := by
  refine ⟨forEnd_reports toEnd, forEnd_reports toEnd', fun s c d abreast hpre => ?_⟩
  cases hole s hpre with
  | none => exact closeScope_pace.meets s c d abreast hpre
  | @some i j h =>
      have hend : Pace S around ⟨k + 1, 1⟩ ⟨k, 1⟩ closes (.hole (S.at around) i j) (forEnd (some i))
          (forEnd (some j)) any :=
        (patchJump_pace fun _ h => h).next
          ((emit_pace rfl fun h => by cases h).next closeScope_pace)
      exact hend.meets s c d abreast h

theorem forStatement_pace (parts : Paced S value value') (body : Closing S statement statement') :
    Pace S around ⟨k, 1⟩ ⟨k, 1⟩ true pre (forStatement value statement)
      (forStatement value' statement') any := by
  refine openScope_pace.next ((expect_pace _ (by decide)).next
    ((forInitializer_pace parts).next ?_))
  refine codeSize_pace.bind fun start start' =>
    (forCondition_pace parts).bind fun toEnd toEnd' => ?_
  refine Pace.bind (forIncrement_pace parts fun _ h => h.1.2) fun back back' => (body _ _ _).next ?_
  refine Pace.next (emitLoop_pace fun _ h => h.2) ?_
  exact forEnd_pace fun _ h => h.1.2

/-! ### Blocks -/

/-- The declarations of a block. At the end of the input the block has not been closed. -/
theorem declarations_pace (parts : Closing S inner inner') (steps steps' : Nat) :
    Pace S around ⟨k, 1⟩ ⟨k, 1⟩ false pre (declarations inner steps) (declarations inner' steps')
      any := by
  have hleft : Reports true inner := (parts around k pre).left
  have hright : Reports true inner' := (parts around k pre).right
  induction steps generalizing steps' with
  | zero => exact .throw_left (Reports.throughout.declarations hright)
  | succ steps ih =>
      cases steps' with
      | zero => exact .throw_right (Reports.throughout.declarations hleft)
      | succ steps' =>
          exact (check_pace _).agreed fun _ => (check_pace _).agreed fun _ =>
            .ite (fun _ => .pure fun _ _ => trivial) fun _ => (parts _ _ _).loosen.next (ih steps')

theorem block_pace (parts : Closing S inner inner') (steps steps' : Nat) :
    Closing S (block inner steps) (block inner' steps') := fun _ _ _ =>
  (declarations_pace parts steps steps').nextInto (expect_hungry _ (by decide))
    (expect_pace _ (by decide))

/-! ### Any statement -/

section

variable {body body' : CompileM Unit}

theorem funDeclaration_pace (parts : Closing S body body') (steps steps' : Nat) :
    Pace S around ⟨k, 1⟩ ⟨k, 1⟩ closes pre (funDeclaration body steps) (funDeclaration body' steps')
      any := by
  refine (variableName_pace _).bind fun i j => markInitialized_pace.next ?_
  refine (functionBody_pace (fun around pre => parts around 1 pre) steps steps').next ?_
  exact defineVariable_pace fun _ h => h.2

theorem statementWith_hungry (parts : Paced S value value') (statement inner : CompileM Unit) :
    Hungry (statementWith value inner statement) := by
  have hend := expressionStatement_hungry (parts [] ⟨0, 1⟩ (.plain True)).left
  exact accept_hungry (by decide) <| accept_hungry (by decide) <| accept_hungry (by decide) <|
    accept_hungry (by decide) <| accept_hungry (by decide) <| accept_hungry (by decide) hend

theorem statementWith_pace (parts : Paced S value value') (blocks : Closing S body body')
    (branch : Closing S statement statement') :
    Closing S (statementWith value body statement) (statementWith value' body' statement') := by
  have hend := expressionStatement_hungry (parts [] ⟨0, 1⟩ (.plain True)).left
  have hbrace := accept_hungry (k := .leftBrace) (f := fun b => if b = true then do
    openScope
    body
    closeScope else expressionStatement value) (by decide) hend
  have hfor := accept_hungry (k := .forWord) (f := fun b => if b = true then
    forStatement value statement else _) (by decide) hbrace
  have hwhile := accept_hungry (k := .whileWord) (f := fun b => if b = true then
    whileStatement value statement else _) (by decide) hfor
  have hreturn := accept_hungry (k := .returnWord) (f := fun b => if b = true then
    returnStatement value else _) (by decide) hwhile
  have hif := accept_hungry (k := .ifWord) (f := fun b => if b = true then
    ifStatement value statement else _) (by decide) hreturn
  intro around k pre
  refine accept_into (by decide) hif fun _ => .ite (fun _ => printStatement_pace parts) fun _ => ?_
  refine accept_into (by decide) hreturn fun _ =>
    .ite (fun _ => ifStatement_pace parts branch) fun _ => ?_
  refine accept_into (by decide) hwhile fun _ =>
    .ite (fun _ => returnStatement_pace parts) fun _ => ?_
  refine accept_into (by decide) hfor fun _ =>
    .ite (fun _ => whileStatement_pace parts branch) fun _ => ?_
  refine accept_into (by decide) hbrace fun _ =>
    .ite (fun _ => forStatement_pace parts branch) fun _ => ?_
  exact accept_into (by decide) hend fun _ =>
    .ite (fun _ => openScope_pace.next ((blocks _ _ _).next closeScope_pace))
      fun _ => expressionStatement_pace parts

/-- Compilers that keep abreast have reported nothing, so there is no panic to end. -/
theorem recover_pace :
    Pace S around p p closes pre
      (do if (← get).panicking then synchronize : CompileM Unit)
      (do if (← get).panicking then synchronize : CompileM Unit) any := by
  refine ⟨recover_reports, recover_reports, fun s c d abreast _ => ?_⟩
  rw [bind_of_ok (get_apply _), bind_of_ok (get_apply _), panicking, panicking,
    abreast.quiet.alarm, abreast.quiet'.alarm]
  exact .ok abreast (.refl s) trivial

theorem declarationWith_pace (parts : Paced S value value') (blocks : Closing S body body')
    (branch : Closing S statement statement') (hungry : Hungry statement) (steps steps' : Nat) :
    Closing S (declarationWith value body statement steps)
      (declarationWith value' body' statement' steps') := by
  intro around k pre
  have hrecover : Hungry (do
      statement
      if (← get).panicking then synchronize) :=
    hungry.bind fun _ => recover_reports
  exact accept_into (by decide) (accept_hungry (by decide) hrecover) fun _ =>
    .ite (fun _ => (funDeclaration_pace blocks steps steps').next recover_pace) fun _ =>
      accept_into (by decide) hrecover fun _ =>
        .ite (fun _ => (varDeclaration_pace parts).next recover_pace) fun _ =>
          (branch _ _ _).next recover_pace

end

/-- Any statement and any declaration, whatever the budgets. -/
theorem statementAt_declarationAt_pace (steps steps' : Nat) :
    Closing S (statementAt steps) (statementAt steps') ∧
      Closing S (declarationAt steps) (declarationAt steps') := by
  induction steps generalizing steps' with
  | zero =>
      obtain ⟨hstatement, hdeclaration⟩ := statementAt_declarationAt_reports steps'
      rw [statementAt, declarationAt]
      exact ⟨fun _ _ _ => .throw_left hstatement, fun _ _ _ => .throw_left hdeclaration⟩
  | succ steps ih =>
      cases steps' with
      | zero =>
          obtain ⟨hstatement, hdeclaration⟩ := statementAt_declarationAt_reports (steps + 1)
          rw [statementAt.eq_1, declarationAt.eq_1]
          exact ⟨fun _ _ _ => .throw_right hstatement, fun _ _ _ => .throw_right hdeclaration⟩
      | succ steps' =>
          obtain ⟨hstatement, hdeclaration⟩ := ih steps'
          have hvalue := expression_pace (S := S) (steps + 1) (steps' + 1)
          have hblock := block_pace hdeclaration (steps + 1) (steps' + 1)
          have hbranch := statementWith_pace hvalue hblock hstatement
          rw [statementAt, statementAt, declarationAt, declarationAt]
          exact ⟨hbranch, declarationWith_pace hvalue hblock hbranch
            (statementWith_hungry hvalue _ _) _ _⟩

end Compiler

end Lox
