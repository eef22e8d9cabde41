import Lox.Proofs.Compile.Renaming

/-!
# Programs compiled on another heap

Expressions, statements and programs are compiled alike on heaps that are alike. The budgets of
steps are never used up: wherever one is lowered, a token has been taken, and none is taken
twice.

## Main results

* `expressionAt_steady`, `statementAt_declarationAt_steady` — any expression, statement and
  declaration.
* `compile_agrees` — compiling on heaps that correspond.
* `compile_alike` — compiling on heaps that are alike.
* `compile_total` — compiling ends with a function or with diagnostics.
-/

namespace Lox

namespace Compiler

variable {α : Type} {c d c' d' : Compiler} {π : Pairing}
  {held held' : List Handle} {C : Correspondence held held'} {eager : Bool} {n steps : Nat}

/-! ### Operands -/

/-- A choice by the token ahead, which the first form consumes. -/
theorem check_advance_steady {kind : TokenKind} {b : Bool} {x y : CompileM α}
    (proper : kind ≠ .endOfInput) (yes : ∀ m < n, Steady C false m x) (no : Steady C eager n y) :
    Steady C eager n (do
      if b && (← check kind) then
        advance
        x
      else y) := by
  intro c π d alike hleft
  obtain ⟨hrun, hrun'⟩ := check_agrees alike kind
  rw [bind_of_ok hrun, bind_of_ok hrun']
  by_cases hkind : c.current.kind = kind
  · cases b with
    | false => exact no c π d alike hleft
    | true =>
        have hend : c.current.kind ≠ .endOfInput := hkind ▸ proper
        simp only [hkind, decide_true, Bool.and_self, if_true]
        obtain ⟨c', d', hadvance, hadvance', hmoves, -⟩ := advance_agrees alike
        rw [bind_of_ok hadvance, bind_of_ok hadvance']
        have htakes := hmoves.takes rfl hend
        refine (yes c'.ahead.length (by omega) c' π d' hmoves.alike (Nat.le_refl _)).imp
          fun a e b e' ⟨π', hmoves', heq⟩ => ⟨π', ?_, heq⟩
        exact { hmoves.trans hmoves' with
          takes := fun _ _ => Nat.lt_of_le_of_lt hmoves'.left htakes }
  · simp only [hkind, decide_false, Bool.and_false, Bool.false_eq_true, if_false]
    exact no c π d alike hleft

theorem variableOperand_steady {expression : CompileM Unit} (mayAssign : Bool)
    (whole : Steady C true n expression) :
    Steady C false n (variableOperand expression mayAssign) :=
  .read (fun _ _ _ alike => by rw [alike.previous]) fun _ => .bind (resolve_steady _) fun _ =>
    check_advance_steady nofun
      (fun _ hm => .bind (whole.idle.mono hm.le) fun _ => emitWith_steady _ _)
      (emitWith_steady _ _)

theorem numberOperand_steady : Steady C false n numberOperand := by
  refine .read (fun _ _ _ alike => by rw [alike.previous]) fun c => ?_
  split
  · exact fun _ _ _ alike _ => emitConstant_agrees alike (.number _) trivial
  · exact complain_steady _

/-- A string token that has been consumed has a text. -/
theorem stringOperand_agrees (alike : c.Alike C π d) (kind : c.previous.kind = .string) :
    Agrees C false c (fun _ a b => b = a) (stringOperand c) (stringOperand d) := by
  obtain ⟨text, htext⟩ := alike.legible.previous kind
  unfold stringOperand
  rw [bind_of_ok (get_apply c), bind_of_ok (get_apply d), alike.previous, htext]
  exact .bind (intern_agrees alike text) fun g h c' π' d' hmoves hpair =>
    emitConstant_agrees hmoves.alike (.object (Pairing.all_of_texts _ _ _ hpair)) trivial

/-- The form of an operand that is a string starts with a string token. -/
theorem ofToken?_eq_string {kind : TokenKind}
    (h : OperandForm.ofToken? kind = some .string) : kind = .string := by
  revert h
  cases kind <;> simp [OperandForm.ofToken?]

/-- An operand whose first token has just been consumed. -/
theorem operand_agrees {parse : Precedence → CompileM Unit} (mayAssign : Bool)
    (parts : ∀ least, 0 < least.rank → Steady C true n (parse least)) (alike : c.Alike C π d)
    (left : c.ahead.length ≤ n) {form : OperandForm}
    (hform : OperandForm.ofToken? c.previous.kind = some form) :
    Agrees C false c (fun _ a b => b = a) (operand parse mayAssign form c)
      (operand parse mayAssign form d) := by
  cases form with
  | grouping =>
      exact Steady.bind (parts .assignment (by decide)).idle
        (fun _ => expect_steady _ _) c π d alike left
  | negation =>
      exact Steady.read (fun _ _ _ alike => by rw [alike.previous])
        (fun _ => .bind (parts .unary (by decide)).idle fun _ => .forM (fun _ => emit_steady _) _)
        c π d alike left
  | «variable» =>
      exact variableOperand_steady mayAssign (parts .assignment (by decide)) c π d alike left
  | string => exact stringOperand_agrees alike (ofToken?_eq_string hform)
  | number => exact numberOperand_steady c π d alike left
  | literal =>
      exact Steady.read (fun _ _ _ alike => by rw [alike.previous])
        (fun _ => .forM (fun _ => emit_steady _) _) c π d alike left

/-! ### Operators -/

theorem arguments_steady {expression : CompileM Unit} (whole : Steady C true n expression)
    (enough : n < steps) (count : Nat) :
    Steady C false n (arguments expression steps count) := by
  induction steps generalizing n count with
  | zero => exact absurd enough (Nat.not_lt_zero n)
  | succ steps ih =>
      have rest : Steady C false n (do
          if ← accept .comma then arguments expression steps (count + 1)
          else return count + 1) :=
        accept_steady nofun (fun m hm => ih (whole.mono hm.le) (by omega) (count + 1)) (.pure _)
      exact .bind whole.idle fun _ => .ite (fun _ => .bind (complain_steady _) fun _ => rest)
        fun _ => rest

theorem callOperator_steady {expression : CompileM Unit} (whole : Steady C true n expression)
    (enough : n < steps) : Steady C false n (callOperator expression steps) :=
  .bind (check_steady _) fun _ => .ite
    (fun _ => .bind (.pure _) fun _ => .bind (expect_steady _ _) fun _ => emitWith_steady _ _)
    fun _ => .bind (arguments_steady whole enough 0) fun _ => .bind (expect_steady _ _) fun _ =>
      emitWith_steady _ _

theorem andOperator_steady {parse : Precedence → CompileM Unit}
    (right : Steady C true n (parse .and)) : Steady C false n (andOperator parse) :=
  .bind (emitJump_steady _) fun _ => .bind (emit_steady _) fun _ => .bind right.idle fun _ =>
    patchJump_steady _

theorem orOperator_steady {parse : Precedence → CompileM Unit}
    (right : Steady C true n (parse .or)) : Steady C false n (orOperator parse) :=
  .bind (emitJump_steady _) fun _ => .bind (emitJump_steady _) fun _ =>
    .bind (patchJump_steady _) fun _ => .bind (emit_steady _) fun _ => .bind right.idle fun _ =>
      patchJump_steady _

/-- What binds tighter than something binds. -/
theorem rank_tighter_pos (p : Precedence) : 0 < p.tighter.rank := by
  cases p <;> decide

theorem operator_steady {parse : Precedence → CompileM Unit} (form : OperatorForm)
    (parts : ∀ least, 0 < least.rank → Steady C true n (parse least)) (enough : n < steps) :
    Steady C false n (operator parse steps form) := by
  cases form with
  | call => exact callOperator_steady (parts .assignment (by decide)) enough
  | binary =>
      exact .read (fun _ _ _ alike => by rw [alike.previous]) fun _ =>
        .bind (parts _ (rank_tighter_pos _)).idle fun _ => .forM (fun _ => emit_steady _) _
  | and => exact andOperator_steady (parts .and (by decide))
  | or => exact orOperator_steady (parts .or (by decide))

/-- What follows once a token has been taken for an operator. -/
theorem operatorTaken_steady {parse : Precedence → CompileM Unit} {least : Precedence}
    (parts : ∀ least, 0 < least.rank → Steady C true n (parse least)) (enough : n < steps + 1)
    (more : Steady C false n (operators parse least steps)) :
    Steady C false n (do
      match OperatorForm.ofToken? (← get).previous.kind with
      | some form => operator parse (steps + 1) form
      | none => pure ()
      operators parse least steps) := by
  refine .read (fun _ _ _ alike => by rw [alike.previous]) fun e => ?_
  cases OperatorForm.ofToken? e.previous.kind with
  | some form => exact .bind (operator_steady _ parts enough) fun _ => more
  | none => exact more

theorem operators_steady {parse : Precedence → CompileM Unit} {least : Precedence}
    (tight : 0 < least.rank) (parts : ∀ least, 0 < least.rank → Steady C true n (parse least))
    (enough : n < steps) : Steady C false n (operators parse least steps) := by
  induction steps generalizing n with
  | zero => exact absurd enough (Nat.not_lt_zero n)
  | succ steps ih =>
      intro c π d alike hleft
      unfold operators
      rw [bind_of_ok (get_apply c), bind_of_ok (get_apply d), alike.current]
      split
      · rename_i hbinds
        -- the end of the input binds nothing
        have hend : c.current.kind ≠ .endOfInput := fun hend => by
          rw [hend] at hbinds
          exact absurd (Nat.lt_of_lt_of_le tight hbinds) (Nat.lt_irrefl 0)
        obtain ⟨c', d', hadvance, hadvance', hmoves, -⟩ := advance_agrees alike
        rw [bind_of_ok hadvance, bind_of_ok hadvance']
        have htakes := hmoves.takes rfl hend
        have hfewer : c'.ahead.length ≤ n := by omega
        have parts' : ∀ least, 0 < least.rank → Steady C true c'.ahead.length (parse least) :=
          fun least hleast => (parts least hleast).mono hfewer
        have rest := operatorTaken_steady parts' (by omega) (ih parts' (by omega))
        refine (rest c' π d' hmoves.alike (Nat.le_refl _)).imp ?_
        rintro _ _ _ _ ⟨π', hmoves', heq⟩
        exact ⟨π', (hmoves.trans hmoves').idle, heq⟩
      · exact Steady.pure () c π d alike hleft

/-! ### Any expression -/

theorem expressionWith_steady {parse : Precedence → CompileM Unit} {least : Precedence}
    (tight : 0 < least.rank)
    (parts : ∀ m < n, ∀ least, 0 < least.rank → Steady C true m (parse least))
    (enough : n < steps) : Steady C true n (expressionWith parse steps least) := by
  intro c π d alike hleft
  obtain ⟨c', d', hadvance, hadvance', hmoves, hprevious⟩ := advance_agrees alike
  unfold expressionWith
  rw [bind_of_ok hadvance, bind_of_ok hadvance', bind_of_ok (get_apply c'),
    bind_of_ok (get_apply d'), hmoves.alike.previous]
  have after : ∀ {x y : EStateM.Result Fault Compiler Unit},
      Agrees C false c' (fun _ a b => b = a) x y → Agrees C true c (fun _ a b => b = a) x y :=
    fun agrees => agrees.imp fun _ _ _ _ ⟨π', hmoves', heq⟩ => ⟨π', hmoves.trans hmoves', heq⟩
  refine after ?_
  cases hform : OperandForm.ofToken? c'.previous.kind with
  | none => exact complain_steady (n := c'.ahead.length) _ c' π d' hmoves.alike (Nat.le_refl _)
  | some form =>
      have hend : c.current.kind ≠ .endOfInput := fun hend => by
        rw [hprevious, hend] at hform
        cases hform
      have htakes := hmoves.takes rfl hend
      have parts' := parts c'.ahead.length (by omega)
      refine .bind (operand_agrees _ parts' hmoves.alike (Nat.le_refl _) hform)
        fun _ _ c'' π'' d'' hmoves' _ => ?_
      exact Steady.bind (operators_steady tight parts' (by omega))
        (fun _ => check_advance_steady (show TokenKind.equal ≠ .endOfInput by decide)
          (fun _ _ => complain_steady _) (.pure _))
        c'' π'' d'' hmoves'.alike hmoves'.left

theorem expressionAt_steady {least : Precedence} (tight : 0 < least.rank) (enough : n < steps) :
    Steady C true n (expressionAt steps least) := by
  induction steps generalizing n least with
  | zero => exact absurd enough (Nat.not_lt_zero n)
  | succ steps ih =>
      exact expressionWith_steady tight (fun m hm least hleast => ih hleast (by omega)) enough

theorem expression_steady (enough : n < steps) : Steady C true n (expression steps) :=
  expressionAt_steady (by decide) enough

/-! ### Simple statements -/

variable {expression statement inner declaration : CompileM Unit}

theorem printStatement_steady (value : Steady C true n expression) :
    Steady C false n (printStatement expression) :=
  .bind value.idle fun _ => .bind (expect_steady _ _) fun _ => emit_steady _

theorem expressionStatement_steady (value : Steady C true n expression) :
    Steady C true n (expressionStatement expression) :=
  .bind value fun _ => .bind (expect_steady _ _) fun _ => emit_steady _

theorem returnStatement_steady (value : Steady C true n expression) :
    Steady C false n (returnStatement expression) := by
  have rest : Steady C false n (do
      if ← accept .semicolon then emitReturn
      else
        expression
        expect .semicolon .semicolonAfterReturnValue
        emit .giveBack) :=
    accept_steady nofun (fun _ _ => emitReturn_steady)
      (.bind value.idle fun _ => .bind (expect_steady _ _) fun _ => emit_steady _)
  exact .read (fun _ _ _ alike => by rw [alike.draft.isScript]) fun _ =>
    .ite (fun _ => .bind (complain_steady _) fun _ => rest) fun _ => rest

theorem varDeclaration_steady (value : Steady C true n expression) :
    Steady C false n (varDeclaration expression) := by
  refine .bind (variableName_steady _) fun global => ?_
  have rest : ∀ m, Steady C false m (do
      expect .semicolon .semicolonAfterVariable
      defineVariable global) :=
    fun _ => .bind (expect_steady _ _) fun _ => defineVariable_steady _
  exact accept_steady nofun (fun m hm => .bind (value.idle.mono hm.le) fun _ => rest m)
    (.bind (emit_steady _) fun _ => rest n)

/-! ### Control flow -/

theorem ifStatement_steady (condition : Steady C true n expression)
    (branch : Steady C true n statement) : Steady C false n (ifStatement expression statement) :=
  .bind (expect_steady _ _) fun _ => .bind condition.idle fun _ => .bind (expect_steady _ _)
    fun _ => .bind (emitJump_steady _) fun _ => .bind (emit_steady _) fun _ =>
    .bind branch.idle fun _ => .bind (emitJump_steady _) fun _ => .bind (patchJump_steady _)
    fun _ => .bind (emit_steady _) fun _ =>
      accept_steady nofun
        (fun _ hm => .bind (branch.idle.mono hm.le) fun _ => patchJump_steady _)
        (patchJump_steady _)

theorem whileStatement_steady (condition : Steady C true n expression)
    (body : Steady C true n statement) : Steady C false n (whileStatement expression statement) :=
  .bind codeSize_steady fun _ => .bind (expect_steady _ _) fun _ => .bind condition.idle fun _ =>
    .bind (expect_steady _ _) fun _ => .bind (emitJump_steady _) fun _ => .bind (emit_steady _)
    fun _ => .bind body.idle fun _ => .bind (emitLoop_steady _) fun _ =>
    .bind (patchJump_steady _) fun _ => emit_steady _

theorem forInitializer_steady (value : Steady C true n expression) :
    Steady C false n (forInitializer expression) :=
  accept_steady nofun (fun _ _ => .pure _) (accept_steady nofun
    (fun _ hm => varDeclaration_steady (value.mono hm.le)) (expressionStatement_steady value).idle)

theorem forCondition_steady (condition : Steady C true n expression) :
    Steady C false n (forCondition expression) :=
  accept_steady nofun (fun _ _ => .pure _) (.bind condition.idle fun _ =>
    .bind (expect_steady _ _) fun _ => .bind (emitJump_steady _) fun _ => .bind (emit_steady _)
    fun _ => .pure _)

theorem forIncrement_steady (increment : Steady C true n expression) (start : Nat) :
    Steady C false n (forIncrement expression start) :=
  accept_steady nofun (fun _ _ => .pure _) (.bind (emitJump_steady _) fun _ =>
    .bind codeSize_steady fun _ => .bind increment.idle fun _ => .bind (emit_steady _) fun _ =>
    .bind (expect_steady _ _) fun _ => .bind (emitLoop_steady _) fun _ =>
    .bind (patchJump_steady _) fun _ => .pure _)

theorem forStatement_steady (clause : Steady C true n expression)
    (body : Steady C true n statement) :
    Steady C false n (forStatement expression statement) := by
  refine .bind openScope_steady fun _ => .bind (expect_steady _ _) fun _ =>
    .bind (forInitializer_steady clause) fun _ => .bind codeSize_steady fun _ =>
    .bind (forCondition_steady clause) fun toEnd => .bind (forIncrement_steady clause _) fun _ =>
    .bind body.idle fun _ => .bind (emitLoop_steady _) fun _ => ?_
  cases toEnd with
  | none => exact closeScope_steady
  | some toEnd =>
      exact .bind (patchJump_steady _) fun _ => .bind (emit_steady _) fun _ => closeScope_steady

/-! ### Blocks and functions -/

theorem declarations_steady (each : Steady C true n declaration) (enough : n < steps) :
    Steady C false n (declarations declaration steps) := by
  induction steps generalizing n with
  | zero => exact absurd enough (Nat.not_lt_zero n)
  | succ steps ih =>
      intro c π d alike hleft
      obtain ⟨hbrace, hbrace'⟩ := check_agrees alike .rightBrace
      obtain ⟨hover, hover'⟩ := check_agrees alike .endOfInput
      unfold declarations
      rw [bind_of_ok hbrace, bind_of_ok hbrace', bind_of_ok hover, bind_of_ok hover']
      split
      · exact Steady.pure () c π d alike hleft
      · rename_i hgo
        have hend : c.current.kind ≠ .endOfInput := fun hend => hgo (by simp [hend])
        refine .idle (.bind (each c π d alike hleft) fun _ _ c' π' d' hmoves _ => ?_)
        have htakes := hmoves.takes rfl hend
        exact ih (n := c'.ahead.length) (each.mono (by omega)) (by omega) c' π' d' hmoves.alike
          (Nat.le_refl _)

theorem block_steady (each : Steady C true n declaration) (enough : n < steps) :
    Steady C false n (block declaration steps) :=
  .bind (declarations_steady each enough) fun _ => expect_steady _ _

theorem parameters_steady (enough : n < steps) : Steady C false n (parameters steps) := by
  induction steps generalizing n with
  | zero => exact absurd enough (Nat.not_lt_zero n)
  | succ steps ih =>
      have rest : Steady C false n (do
          defineVariable (← variableName .parameterName)
          if ← accept .comma then parameters steps) :=
        .bind (variableName_steady _) fun _ => .bind (defineVariable_steady _) fun _ =>
          accept_steady nofun (fun m hm => ih (by omega)) (.pure _)
      refine .read (fun _ _ _ alike => by rw [alike.draft.arity]) fun _ => .ite
        (fun _ => .bind (complainAhead_steady _) fun _ => rest)
        fun _ => .bind (modifyDraft_steady fun _ _ _ alike => ?_) fun _ => rest
      exact { alike with arity := by simp [alike.arity] }

/-- The end of a function, and the instruction that makes a closure of it. -/
theorem makeClosure_steady :
    Steady C false n (do
      let function ← finishFunction
      let captures := (← get).draft.captures
      leaveFunction
      emitWith .closure (← makeConstant (.object function))
      captures.toList.forM fun capture => do
        emitByte (if capture.isLocal then 1 else 0)
        emitByte capture.index) := by
  intro c π d alike _
  refine .bind (finishFunction_agrees alike) fun g h c π d hmoves hpair => ?_
  have alike := hmoves.alike
  obtain ⟨c', d', hrun, hrun', hmoves'⟩ := leaveFunction_agrees alike
  rw [bind_of_ok (get_apply c), bind_of_ok (get_apply d), bind_of_ok hrun, bind_of_ok hrun',
    alike.draft.captures]
  have rest : Agrees C false c' (fun _ a b => b = a) ((do
        emitWith .closure (← makeConstant (.object g))
        c.draft.captures.toList.forM fun capture => do
          emitByte (if capture.isLocal then 1 else 0)
          emitByte capture.index) c') ((do
        emitWith .closure (← makeConstant (.object h))
        c.draft.captures.toList.forM fun capture => do
          emitByte (if capture.isLocal then 1 else 0)
          emitByte capture.index) d') := by
    refine .bind (makeConstant_agrees hmoves'.alike (.object hpair) trivial)
      fun a b c π d hmoves heq => ?_
    subst heq
    exact Steady.bind (n := c.ahead.length) (emitWith_steady _ _)
      (fun _ => .forM (fun _ => .bind (emitByte_steady _) fun _ => emitByte_steady _) _) c π d
      hmoves.alike (Nat.le_refl _)
  exact rest.imp fun _ _ _ _ ⟨π', hmoves'', heq⟩ => ⟨π', hmoves'.trans hmoves'', heq⟩

theorem functionBody_steady (body : Steady C false n inner) (enough : n < steps) :
    Steady C false n (functionBody inner steps) := by
  intro c π d alike hleft
  unfold functionBody
  rw [bind_of_ok (get_apply c), bind_of_ok (get_apply d), alike.previous]
  refine .bind (intern_agrees alike _) fun g h c π d hmoves hpair => ?_
  obtain ⟨c', d', hrun, hrun', hmoves'⟩ := enterFunction_agrees hmoves.alike hpair
  rw [bind_of_ok hrun, bind_of_ok hrun']
  have rest := Steady.bind (expect_steady (n := n) .rightParen .parenAfterParameters) fun _ =>
    .bind (expect_steady .leftBrace .braceBeforeBody) fun _ => .bind body fun _ =>
      makeClosure_steady
  have whole := Steady.bind (openScope_steady (n := n)) fun _ =>
    .bind (expect_steady .leftParen .parenAfterFunctionName) fun _ =>
    .bind (check_steady .rightParen) fun closed =>
    .ite (P := (!closed) = true) (fun _ => .bind (parameters_steady enough) fun _ => rest)
      fun _ => rest
  exact (whole c' π d' hmoves'.alike (hmoves'.left.trans (hmoves.left.trans hleft))).imp
    fun _ _ _ _ ⟨π', hmoves'', heq⟩ => ⟨π', hmoves'.trans hmoves'', heq⟩

theorem funDeclaration_steady (body : Steady C false n inner) (enough : n < steps) :
    Steady C false n (funDeclaration inner steps) :=
  .bind (variableName_steady _) fun _ => .bind markInitialized_steady fun _ =>
    .bind (functionBody_steady body enough) fun _ => defineVariable_steady _

/-! ### Any statement -/

theorem statementWith_steady (value : Steady C true n expression)
    (body : ∀ m < n, Steady C false m inner) (part : ∀ m < n, Steady C true m statement) :
    Steady C true n (statementWith expression inner statement) :=
  accept_steady nofun (fun _ hm => printStatement_steady (value.mono hm.le)) <|
  accept_steady nofun (fun m hm => ifStatement_steady (value.mono hm.le) (part m hm)) <|
  accept_steady nofun (fun _ hm => returnStatement_steady (value.mono hm.le)) <|
  accept_steady nofun (fun m hm => whileStatement_steady (value.mono hm.le) (part m hm)) <|
  accept_steady nofun (fun m hm => forStatement_steady (value.mono hm.le) (part m hm)) <|
  accept_steady nofun
    (fun m hm => .bind openScope_steady fun _ => .bind (body m hm) fun _ => closeScope_steady)
    (expressionStatement_steady value)

theorem declarationWith_steady (value : Steady C true n expression)
    (body : ∀ m < n, Steady C false m inner) (part : Steady C true n statement)
    (enough : n ≤ steps) :
    Steady C true n (declarationWith expression inner statement steps) := by
  have rest : ∀ m, Steady C false m (do if (← get).panicking then synchronize) := fun m =>
    .read (fun c _ d alike => by
        rw [show d.panicking = c.panicking by simp [panicking, alike.alarm]]) fun _ =>
      .ite (fun _ => synchronize_steady) fun _ => .pure _
  exact accept_steady (by decide)
    (fun m hm => .bind (funDeclaration_steady (body m hm) (by omega)) fun _ => rest m)
    (accept_steady (by decide)
      (fun m hm => .bind (varDeclaration_steady (value.mono hm.le)) fun _ => rest m)
      (.bind part fun _ => rest n))

theorem statementAt_declarationAt_steady (steps : Nat) :
    (∀ n < steps, Steady C true n (statementAt steps)) ∧
      ∀ n < steps, Steady C true n (declarationAt steps) := by
  induction steps with
  | zero => exact ⟨nofun, nofun⟩
  | succ steps ih =>
      obtain ⟨hstatement, hdeclaration⟩ := ih
      have hexpression : ∀ n < steps + 1, Steady C true n (expression (steps + 1)) :=
        fun n hn => expression_steady hn
      have hblock : ∀ m < steps, Steady C false m (block (declarationAt steps) (steps + 1)) :=
        fun m hm => block_steady (hdeclaration m hm) (by omega)
      have hwith : ∀ n < steps + 1, Steady C true n (statementWith (expression (steps + 1))
          (block (declarationAt steps) (steps + 1)) (statementAt steps)) := fun n hn =>
        statementWith_steady (hexpression n hn) (fun m hm => hblock m (by omega))
          fun m hm => hstatement m (by omega)
      refine ⟨hwith, fun n hn => ?_⟩
      exact declarationWith_steady (hexpression n hn) (fun m hm => hblock m (by omega))
        (hwith n hn) (by omega)

/-! ### Programs -/

theorem programDeclarations_steady (each : ∀ m ≤ n, Steady C true m declaration)
    (enough : n < steps) : Steady C false n (programDeclarations declaration steps) := by
  induction steps generalizing n with
  | zero => exact absurd enough (Nat.not_lt_zero n)
  | succ steps ih =>
      intro c π d alike hleft
      unfold programDeclarations
      by_cases hend : c.current.kind = .endOfInput
      · obtain ⟨c', d', hadvance, hadvance', hmoves, -⟩ := advance_agrees alike
        rw [bind_of_ok (accept_of_eq hend hadvance),
          bind_of_ok (accept_of_eq (alike.current ▸ hend) hadvance')]
        exact .ok ⟨π, hmoves.idle, rfl⟩
      · rw [bind_of_ok (accept_of_ne hend), bind_of_ok (accept_of_ne (alike.current ▸ hend))]
        refine .idle (.bind (each n (Nat.le_refl n) c π d alike hleft)
          fun _ _ c' π' d' hmoves _ => ?_)
        have htakes := hmoves.takes rfl hend
        exact ih (n := c'.ahead.length) (fun m hm => each m (by omega)) (by omega) c' π' d'
          hmoves.alike (Nat.le_refl _)

/-- The token ahead does not matter for the one pulled. -/
theorem pull_current (c : Compiler) (t : Token) (pending : List Token) :
    pull { c with current := t } pending = pull c pending := by
  induction pending generalizing c with
  | nil => rfl
  | cons s pending ih =>
      unfold pull
      split
      · have hreport : ({ c with current := t } : Compiler).report s (.malformed s.lexeme) =
            { c.report s (.malformed s.lexeme) with current := t } := by
          unfold report
          split <;> split <;> first | rfl | contradiction
        rw [hreport, ih]
      · rfl

/-- The compilers of the same program at its first token. -/
theorem advance_start_agrees {tokens : TokenStream} {heap heap' : Heap}
    (holds : C.holds heap π heap') (terminated : tokens.Terminated) :
    ∃ c d, advance (start tokens held heap) = .ok () c ∧
      advance (start tokens held' heap') = .ok () d ∧ c.Alike C π d ∧
      c.ahead.length ≤ tokens.pending.length := by
  -- a start at any other token than the end of input
  have hstart :
      ({ start tokens held heap with current := ⟨.semicolon, "", 1⟩ } : Compiler).Alike C π
      { start tokens held' heap' with current := ⟨.semicolon, "", 1⟩ } :=
    { tokens := rfl, current := rfl, previous := rfl, alarm := rfl, diagnostics := rfl
      draft := ⟨.none, rfl, rfl, rfl, rfl, .nil, nofun, rfl, rfl, rfl⟩
      enclosing := .nil
      held := rfl, held' := rfl
      heap := holds
      legible := {
        final := terminated.final, pending := terminated.pending, drained := nofun
        readable := terminated.readable, current := nofun, previous := nofun } }
  obtain ⟨hpull, hle⟩ := hstart.pull (List.suffix_refl _)
  rw [pull_current (start tokens held heap)] at hpull hle
  rw [pull_current (start tokens held' heap')] at hpull
  exact ⟨_, _, rfl, rfl, hpull, hle⟩

end Compiler

variable {heap heap' : Heap} {held held' : List Handle} {tokens : TokenStream}

/-- The same outcome of a compilation up to a renaming. -/
inductive Compiled.Alike (ρ : Renaming) : Except (List Diagnostic) Handle →
    Except (List Diagnostic) Handle → Prop
  | accepted {g h : Handle} : ρ g h → Alike ρ (.ok g) (.ok h)
  | rejected (ds : List Diagnostic) : Alike ρ (.error ds) (.error ds)

/-- Compiling the same tokens on heaps that correspond gives functions that are paired, or the
same diagnostics. -/
theorem compile_agrees {C : Correspondence held held'} {π : Pairing} (holds : C.holds heap π heap')
    (terminated : tokens.Terminated) :
    Agree (fun r mid r' mid' => ∃ π', C.holds mid π' mid' ∧ Compiled.Alike π'.all r r')
      (fun _ _ _ _ => False) Heap.Lost (compile tokens held heap) (compile tokens held' heap') := by
  obtain ⟨c, d, hrun, hrun', hstart, hle⟩ := Compiler.advance_start_agrees holds terminated
  have agree : Compiler.Agrees C false c (fun π' g h => π'.all g h)
      (Compiler.program (tokens.pending.length + 2) (.start tokens held heap))
      (Compiler.program (tokens.pending.length + 2) (.start tokens held' heap')) := by
    unfold Compiler.program
    rw [bind_of_ok hrun, bind_of_ok hrun']
    refine .bind (Compiler.programDeclarations_steady (n := tokens.pending.length)
      (fun m hm => (Compiler.statementAt_declarationAt_steady _).2 m (by omega)) (by omega) c π d
      hstart hle) fun _ _ c' π' d' hmoves _ => ?_
    exact Compiler.finishFunction_agrees hmoves.alike
  unfold compile
  generalize Compiler.program (tokens.pending.length + 2) (.start tokens held heap) = left at agree
  generalize Compiler.program (tokens.pending.length + 2) (.start tokens held' heap') =
    right at agree
  cases agree with
  | @ok g c' h d' h =>
      obtain ⟨π', hmoves, hpair⟩ := h
      refine .ok ⟨π', hmoves.alike.heap, ?_⟩
      have hreported : d'.reported = c'.reported := by
        simp [Compiler.reported, hmoves.alike.alarm, hmoves.alike.diagnostics]
      rw [hreported]
      split
      · exact .accepted hpair
      · exact .rejected _
  | fail h => exact h.elim
  | first h => exact .first h
  | second h => exact .second h

/-- Compiling the same tokens on heaps that are alike gives functions that are alike, or the
same diagnostics. -/
theorem compile_alike {ρ : Renaming} (alike : heap.Alike ρ heap') (covers : ρ.Covers held held')
    (terminated : tokens.Terminated) :
    Agree (fun r mid r' mid' => ∃ ρ', heap.Onward ρ held mid ρ' mid' ∧ Compiled.Alike ρ' r r')
      (fun _ _ _ _ => False) Heap.Lost (compile tokens held heap) (compile tokens held' heap') := by
  have holds : (Correspondence.ofAlike heap ρ held held').holds heap ρ.pairing heap' :=
    ⟨ρ, rfl, .refl alike held, covers⟩
  refine (compile_agrees holds terminated).imp ?_
  rintro r mid r' mid' ⟨_, ⟨ρ', rfl, hmid⟩, hcompiled⟩
  exact ⟨ρ', hmid.onward, hcompiled⟩

/-- Compiling ends with a function or with diagnostics, unless a collection overflows. What
the caller holds is untouched. -/
theorem compile_total (valid : heap.Valid) (live : ∀ h ∈ held, heap.Live h)
    (terminated : tokens.Terminated) :
    (∃ r mid, compile tokens held heap = .ok r mid ∧ mid.Valid ∧ heap.Keeps held mid ∧
      ∀ script, r = .ok script → mid.Live script) ∨
    (∃ mid, compile tokens held heap = .error .overflow mid ∧ mid.Overfull) := by
  have covers : heap.same.Covers held held :=
    ⟨fun g hg => ⟨g, hg, rfl, live g hg⟩, fun g hg => ⟨g, hg, rfl, live g hg⟩⟩
  rcases (compile_alike valid.alike covers terminated).diagonal with
    ⟨r, mid, hrun, ρ', honward, hcompiled⟩ | ⟨f, mid, hrun, hfail | ⟨rfl, hover⟩⟩
  · refine .inl ⟨r, mid, hrun, honward.alike.valid, honward.keeps, ?_⟩
    rintro script rfl
    cases hcompiled with
    | accepted hpair => exact (honward.alike.live hpair).1
  · exact hfail.elim
  · exact .inr ⟨mid, hrun, hover⟩

end Lox
