import Lox.Proofs.Compile.Closure
import Lox.Proofs.Compile.Instrument

/-!
# Instruments that imitate the compiler

A compiler with an instrument is put together as the compiler is. So a relation between its steps
and those of the compiler holds of every form, once it is kept by sequences and holds of the steps
in which the two may differ. There is one lemma for each form, whatever the instrument and the
relation are.

Some relations do not hold of each step alone: a jump that has been written waits for its target,
and what is said of an argument too many depends on those before it. Then the forms that contain
such steps are left to the instrument.

## Main definitions

* `Compiler.Imitates` — a relation that sequences keep and that the common steps have.
* `Compiler.ImitatesJumps` — a relation that holds of each jump alone.
* `Compiler.Operators`, `Compiler.Statements` — the forms that are left to the instrument.

## Main results

* `Imitates.expressionAt`, `Imitates.statementAt_declarationAt` — any expression, any statement and
  declaration.
* `Imitates.program` — whole programs.
-/

namespace Lox.Compiler

variable {m : Type → Type} [Monad m] [MonadLiftT CompileM m]

/-- A relation between steps of a compiler with an instrument and steps of the compiler that
sequences keep. Steps without the instrument are related if they have a property. -/
structure Imitates (on : Instrument m) (P : ∀ ⦃α : Type⦄, CompileM α → Prop)
    (R : ∀ ⦃α : Type⦄, m α → CompileM α → Prop) : Prop where
  closed : Closed P
  lift {α : Type} {y : CompileM α} (step : P y) : R (liftM y) y
  pure {α : Type} (a : α) : R (Pure.pure a) (Pure.pure a)
  bind {α β : Type} {x : m α} {y : CompileM α} {f : α → m β} {g : α → CompileM β}
    (first : R x y) (rest : ∀ a, R (f a) (g a)) : R (x >>= f) (y >>= g)
  /-- The state is looked at, but not the panics that are over. -/
  read {α : Type} {f : Compiler → m α} {g : Compiler → CompileM α}
    (blind : ∀ c diagnostics, g { c with diagnostics } = g c) (rest : ∀ c, R (f c) (g c)) :
    R (Instrument.look >>= f) (get >>= g)
  makeConstant (value : Value) : R (on.makeConstant value) (makeConstant value)
  addLocal (name : String) : R (on.addLocal name) (addLocal name)
  resolve (name : String) : R (on.resolve name) (resolve name)
  closeScope : R on.closeScope closeScope
  countParameter : R on.countParameter countParameter

/-- Jumps and functions are related step by step. -/
structure ImitatesJumps (on : Instrument m) (R : ∀ ⦃α : Type⦄, m α → CompileM α → Prop) : Prop where
  emitJump (op : OpCode) : R (on.emitJump op) (emitJump op)
  patchJump (operand : Nat) : R (on.patchJump operand) (patchJump operand)
  emitLoop (target : Nat) : R (on.emitLoop target) (emitLoop target)
  enterFunction (name : Handle) : R (on.enterFunction name) (enterFunction name)
  finishFunction : R on.finishFunction finishFunction
  leaveFunction : R on.leaveFunction leaveFunction

/-- The operators with jumps or arguments are related if their operands are. -/
structure Operators (on : Instrument m) (R : ∀ ⦃α : Type⦄, m α → CompileM α → Prop) : Prop where
  call {x : m Unit} {y : CompileM Unit} (value : R x y) (steps : Nat) :
    R (on.callOperator x steps) (callOperator y steps)
  and {p : Precedence → m Unit} {q : Precedence → CompileM Unit} (right : R (p .and) (q .and)) :
    R (on.andOperator p) (andOperator q)
  or {p : Precedence → m Unit} {q : Precedence → CompileM Unit} (right : R (p .or) (q .or)) :
    R (on.orOperator p) (orOperator q)

/-- The statements with jumps and the functions are related if their parts are. -/
structure Statements (on : Instrument m) (R : ∀ ⦃α : Type⦄, m α → CompileM α → Prop) : Prop where
  choice {x s : m Unit} {y t : CompileM Unit} (condition : R x y) (part : R s t) :
    R (on.ifStatement x s) (ifStatement y t)
  loop {x s : m Unit} {y t : CompileM Unit} (condition : R x y) (part : R s t) :
    R (on.whileStatement x s) (whileStatement y t)
  rounds {x s : m Unit} {y t : CompileM Unit} (clause : R x y) (part : R s t) :
    R (on.forStatement x s) (forStatement y t)
  body {s : m Unit} {t : CompileM Unit} (block : R s t) (steps : Nat) :
    R (on.functionBody s steps) (functionBody t steps)

namespace Imitates

variable {on : Instrument m} {P : ∀ ⦃α : Type⦄, CompileM α → Prop}
  {R : ∀ ⦃α : Type⦄, m α → CompileM α → Prop}

omit [Monad m] [MonadLiftT CompileM m] in
theorem ite {α : Type} {p : Prop} [Decidable p] {x x' : m α} {y y' : CompileM α} (yes : R x y)
    (no : R x' y') : R (if p then x else x') (if p then y else y') := by
  split
  · exact yes
  · exact no

variable (imitates : Imitates on P R)

include imitates

/-! ### Constants and variables -/

theorem fail {α : Type} (fault : Fault) :
    R (Instrument.fail fault : m α) (throw fault : CompileM α) :=
  imitates.lift (imitates.closed.throw fault)

theorem emitConstant (value : Value) : R (on.emitConstant value) (emitConstant value) :=
  imitates.bind (imitates.makeConstant value) fun _ => imitates.lift (imitates.closed.emitWith _ _)

theorem nameConstant (name : String) : R (on.nameConstant name) (nameConstant name) :=
  imitates.bind (imitates.lift (imitates.closed.intern name)) fun _ => imitates.makeConstant _

theorem declareVariable : R on.declareVariable declareVariable :=
  imitates.bind (imitates.lift imitates.closed.inScope) fun _ => ite
    (imitates.read (fun _ _ => rfl) fun _ => ite
      (imitates.bind (imitates.lift (imitates.closed.complain rfl)) fun _ => imitates.addLocal _)
      (imitates.addLocal _))
    (imitates.pure _)

theorem variableName (what : Expectation) : R (on.variableName what) (variableName what) :=
  imitates.bind (imitates.lift (imitates.closed.expect _ what)) fun _ =>
    imitates.bind imitates.declareVariable fun _ =>
      imitates.bind (imitates.lift imitates.closed.inScope) fun _ =>
        ite (imitates.pure _) (imitates.read (fun _ _ => rfl) fun _ => imitates.nameConstant _)

/-! ### Expressions -/

section

variable {parse : Precedence → m Unit} {parse' : Precedence → CompileM Unit} {value : m Unit}
  {value' : CompileM Unit} {steps : Nat}

theorem variableOperand (whole : R value value') (mayAssign : Bool) :
    R (on.variableOperand value mayAssign) (variableOperand value' mayAssign) :=
  imitates.read (fun _ _ => rfl) fun _ => imitates.bind (imitates.resolve _) fun _ =>
    imitates.bind (imitates.lift (imitates.closed.check _)) fun _ => ite
      (imitates.bind (imitates.lift imitates.closed.advance) fun _ => imitates.bind whole fun _ =>
        imitates.lift (imitates.closed.emitWith _ _))
      (imitates.lift (imitates.closed.emitWith _ _))

theorem numberOperand : R on.numberOperand numberOperand := by
  refine imitates.read (fun _ _ => rfl) fun c => ?_
  cases Number.read? c.previous.lexeme with
  | some x => exact imitates.emitConstant _
  | none => exact imitates.lift (imitates.closed.complain rfl)

theorem stringOperand : R on.stringOperand stringOperand := by
  refine imitates.read (fun _ _ => rfl) fun c => ?_
  cases unquote? c.previous.lexeme with
  | some text =>
      exact imitates.bind (imitates.lift (imitates.closed.intern text)) fun _ =>
        imitates.emitConstant _
  | none => exact imitates.fail _

theorem operand (parts : ∀ least, R (parse least) (parse' least)) (mayAssign : Bool)
    (form : OperandForm) :
    R (on.operand parse mayAssign form) (operand parse' mayAssign form) := by
  cases form with
  | grouping =>
      exact imitates.bind (parts _) fun _ => imitates.lift (imitates.closed.expect _ _)
  | negation =>
      exact imitates.read (fun _ _ => rfl) fun _ => imitates.bind (parts _) fun _ =>
        imitates.lift (imitates.closed.forM imitates.closed.emit _)
  | «variable» => exact imitates.variableOperand (parts _) mayAssign
  | string => exact imitates.stringOperand
  | number => exact imitates.numberOperand
  | literal =>
      exact imitates.read (fun _ _ => rfl) fun _ =>
        imitates.lift (imitates.closed.forM imitates.closed.emit _)

/-- Arguments that are counted one by one. -/
theorem arguments (counting : ∀ count, R (on.countArgument count) (countArgument count))
    (whole : R value value') (count : Nat) :
    R (on.arguments value steps count) (arguments value' steps count) := by
  induction steps generalizing count with
  | zero => exact imitates.fail _
  | succ steps ih =>
      rw [arguments_succ]
      exact imitates.bind whole fun _ => imitates.bind (counting count) fun _ =>
        imitates.bind (imitates.lift (imitates.closed.accept _)) fun _ =>
          ite (ih _) (imitates.pure _)

/-- A call whose arguments are counted one by one. -/
theorem callOperator (counting : ∀ count, R (on.countArgument count) (countArgument count))
    (calling : ∀ count, R (on.emitCall count) (emitCall count)) (whole : R value value') :
    R (on.callOperator value steps) (callOperator value' steps) := by
  have hrest : ∀ count, R (do
      expect .rightParen .parenAfterArguments
      on.emitCall count) (do
      expect .rightParen .parenAfterArguments
      emitCall count) := fun _ =>
    imitates.bind (imitates.lift (imitates.closed.expect _ _)) fun _ => calling _
  exact imitates.bind (imitates.lift (imitates.closed.check _)) fun _ => ite
    (imitates.bind (imitates.pure 0) hrest)
      (imitates.bind (imitates.arguments counting whole 0) hrest)

theorem andOperator (jumps : ImitatesJumps on R) (right : R (parse .and) (parse' .and)) :
    R (on.andOperator parse) (andOperator parse') :=
  imitates.bind (jumps.emitJump _) fun _ => imitates.bind (imitates.lift (imitates.closed.emit _))
    fun _ => imitates.bind right fun _ => jumps.patchJump _

theorem orOperator (jumps : ImitatesJumps on R) (right : R (parse .or) (parse' .or)) :
    R (on.orOperator parse) (orOperator parse') :=
  imitates.bind (jumps.emitJump _) fun _ => imitates.bind (jumps.emitJump _) fun _ =>
    imitates.bind (jumps.patchJump _) fun _ =>
      imitates.bind (imitates.lift (imitates.closed.emit _))
      fun _ => imitates.bind right fun _ => jumps.patchJump _

theorem operator (operators : Operators on R) (parts : ∀ least, R (parse least) (parse' least))
    (form : OperatorForm) : R (on.operator parse steps form) (operator parse' steps form) := by
  cases form with
  | call => exact operators.call (parts _) steps
  | binary =>
      exact imitates.read (fun _ _ => rfl) fun _ => imitates.bind (parts _) fun _ =>
        imitates.lift (imitates.closed.forM imitates.closed.emit _)
  | and => exact operators.and (parts _)
  | or => exact operators.or (parts _)

theorem operators (operators : Operators on R) (parts : ∀ least, R (parse least) (parse' least))
    (least : Precedence) :
    R (on.operators parse least steps) (Compiler.operators parse' least steps) := by
  induction steps with
  | zero => exact imitates.fail _
  | succ steps ih =>
      refine imitates.read (fun _ _ => rfl) fun _ => ite
        (imitates.bind (imitates.lift imitates.closed.advance) fun _ =>
          imitates.read (fun _ _ => rfl) fun c => ?_) (imitates.pure _)
      cases OperatorForm.ofToken? c.previous.kind with
      | some form => exact imitates.bind (imitates.operator operators parts form) fun _ => ih
      | none => exact ih

theorem expressionWith (operators : Operators on R)
    (parts : ∀ least, R (parse least) (parse' least)) (least : Precedence) :
    R (on.expressionWith parse steps least) (expressionWith parse' steps least) := by
  refine imitates.bind (imitates.lift imitates.closed.advance) fun _ =>
    imitates.read (fun _ _ => rfl) fun c => ?_
  cases OperandForm.ofToken? c.previous.kind with
  | none => exact imitates.lift (imitates.closed.complain rfl)
  | some form =>
      exact imitates.bind (imitates.operand parts _ form) fun _ =>
        imitates.bind (imitates.operators operators parts least) fun _ =>
          imitates.bind (imitates.lift (imitates.closed.check _)) fun _ => ite
            (imitates.bind (imitates.lift imitates.closed.advance) fun _ =>
              imitates.lift (imitates.closed.complain rfl))
            (imitates.pure _)

/-- Any expression. -/
theorem expressionAt (operators : Operators on R) (steps : Nat) (least : Precedence) :
    R (on.expressionAt steps least) (expressionAt steps least) := by
  induction steps generalizing least with
  | zero => exact imitates.fail _
  | succ steps ih => exact imitates.expressionWith operators ih least

end

/-! ### Statements -/

section

variable {value inner statement declaration : m Unit}
  {value' inner' statement' declaration' : CompileM Unit} {steps : Nat}

theorem printStatement (part : R value value') :
    R (Instrument.printStatement value) (printStatement value') :=
  imitates.bind part fun _ => imitates.bind (imitates.lift (imitates.closed.expect _ _)) fun _ =>
    imitates.lift (imitates.closed.emit _)

theorem expressionStatement (part : R value value') :
    R (Instrument.expressionStatement value) (expressionStatement value') :=
  imitates.bind part fun _ => imitates.bind (imitates.lift (imitates.closed.expect _ _)) fun _ =>
    imitates.lift (imitates.closed.emit _)

theorem returnStatement (part : R value value') :
    R (Instrument.returnStatement value) (returnStatement value') := by
  have hrest : R (do
      if ← accept .semicolon then emitReturn
      else
        value
        expect .semicolon .semicolonAfterReturnValue
        emit .giveBack) (do
      if ← accept .semicolon then emitReturn
      else
        value'
        expect .semicolon .semicolonAfterReturnValue
        emit .giveBack) :=
    imitates.bind (imitates.lift (imitates.closed.accept _)) fun _ => ite
      (imitates.lift imitates.closed.emitReturn)
      (imitates.bind part fun _ =>
        imitates.bind (imitates.lift (imitates.closed.expect _ _)) fun _ =>
        imitates.lift (imitates.closed.emit _))
  exact imitates.read (fun _ _ => rfl) fun _ => ite
    (imitates.bind (imitates.lift (imitates.closed.complain rfl)) fun _ => hrest) hrest

theorem varDeclaration (part : R value value') :
    R (on.varDeclaration value) (varDeclaration value') := by
  have hrest : ∀ global : UInt8, R (do
      expect .semicolon .semicolonAfterVariable
      defineVariable global : m Unit) (do
      expect .semicolon .semicolonAfterVariable
      defineVariable global) := fun global =>
    imitates.bind (imitates.lift (imitates.closed.expect _ _)) fun _ =>
      imitates.lift (imitates.closed.defineVariable global)
  exact imitates.bind (imitates.variableName _) fun global =>
    imitates.bind (imitates.lift (imitates.closed.accept _)) fun _ => ite
      (imitates.bind part fun _ => hrest global)
      (imitates.bind (imitates.lift (imitates.closed.emit _)) fun _ => hrest global)

theorem ifStatement (jumps : ImitatesJumps on R) (condition : R value value')
    (part : R statement statement') :
    R (on.ifStatement value statement) (ifStatement value' statement') :=
  imitates.bind (imitates.lift (imitates.closed.expect _ _)) fun _ =>
    imitates.bind condition fun _ =>
    imitates.bind (imitates.lift (imitates.closed.expect _ _)) fun _ =>
      imitates.bind (jumps.emitJump _) fun _ =>
        imitates.bind (imitates.lift (imitates.closed.emit _))
        fun _ => imitates.bind part fun _ => imitates.bind (jumps.emitJump _) fun _ =>
          imitates.bind (jumps.patchJump _) fun _ =>
            imitates.bind (imitates.lift (imitates.closed.emit _)) fun _ =>
              imitates.bind (imitates.lift (imitates.closed.accept _)) fun _ => ite
                (imitates.bind part fun _ => jumps.patchJump _) (jumps.patchJump _)

theorem whileStatement (jumps : ImitatesJumps on R) (condition : R value value')
    (part : R statement statement') :
    R (on.whileStatement value statement) (whileStatement value' statement') :=
  imitates.bind (imitates.lift imitates.closed.codeSize) fun _ =>
    imitates.bind (imitates.lift (imitates.closed.expect _ _)) fun _ =>
      imitates.bind condition fun _ => imitates.bind (imitates.lift (imitates.closed.expect _ _))
        fun _ => imitates.bind (jumps.emitJump _) fun _ =>
          imitates.bind (imitates.lift (imitates.closed.emit _)) fun _ =>
            imitates.bind part fun _ =>
            imitates.bind (jumps.emitLoop _) fun _ => imitates.bind (jumps.patchJump _) fun _ =>
              imitates.lift (imitates.closed.emit _)

theorem forInitializer (part : R value value') :
    R (on.forInitializer value) (forInitializer value') :=
  imitates.bind (imitates.lift (imitates.closed.accept _)) fun _ => ite (imitates.pure _)
    (imitates.bind (imitates.lift (imitates.closed.accept _)) fun _ =>
      ite (imitates.varDeclaration part) (imitates.expressionStatement part))

theorem forCondition (jumps : ImitatesJumps on R) (part : R value value') :
    R (on.forCondition value) (forCondition value') :=
  imitates.bind (imitates.lift (imitates.closed.accept _)) fun _ => ite (imitates.pure _)
    (imitates.bind part fun _ => imitates.bind (imitates.lift (imitates.closed.expect _ _)) fun _ =>
      imitates.bind (jumps.emitJump _) fun _ =>
        imitates.bind (imitates.lift (imitates.closed.emit _))
        fun _ => imitates.pure _)

theorem forIncrement (jumps : ImitatesJumps on R) (part : R value value') (start : Nat) :
    R (on.forIncrement value start) (forIncrement value' start) :=
  imitates.bind (imitates.lift (imitates.closed.accept _)) fun _ => ite (imitates.pure _)
    (imitates.bind (jumps.emitJump _) fun _ =>
      imitates.bind (imitates.lift imitates.closed.codeSize)
      fun _ => imitates.bind part fun _ => imitates.bind (imitates.lift (imitates.closed.emit _))
        fun _ => imitates.bind (imitates.lift (imitates.closed.expect _ _)) fun _ =>
          imitates.bind (jumps.emitLoop _) fun _ => imitates.bind (jumps.patchJump _) fun _ =>
            imitates.pure _)

theorem forStatement (jumps : ImitatesJumps on R) (clause : R value value')
    (part : R statement statement') :
    R (on.forStatement value statement) (forStatement value' statement') := by
  refine imitates.bind (imitates.lift imitates.closed.openScope) fun _ =>
    imitates.bind (imitates.lift (imitates.closed.expect _ _)) fun _ =>
      imitates.bind (imitates.forInitializer clause) fun _ =>
        imitates.bind (imitates.lift imitates.closed.codeSize) fun _ =>
          imitates.bind (imitates.forCondition jumps clause) fun toEnd =>
            imitates.bind (imitates.forIncrement jumps clause _) fun _ =>
              imitates.bind part fun _ =>
              imitates.bind (jumps.emitLoop _) fun _ => ?_
  cases toEnd with
  | none => exact imitates.closeScope
  | some toEnd =>
      exact imitates.bind (jumps.patchJump _) fun _ =>
        imitates.bind (imitates.lift (imitates.closed.emit _)) fun _ => imitates.closeScope

theorem declarations (part : R declaration declaration') :
    R (Instrument.declarations declaration steps) (declarations declaration' steps) := by
  induction steps with
  | zero => exact imitates.fail _
  | succ steps ih =>
      exact imitates.bind (imitates.lift (imitates.closed.check _)) fun _ =>
        imitates.bind (imitates.lift (imitates.closed.check _)) fun _ =>
          ite (imitates.pure _) (imitates.bind part fun _ => ih)

theorem block (part : R declaration declaration') :
    R (Instrument.block declaration steps) (block declaration' steps) :=
  imitates.bind (imitates.declarations part) fun _ => imitates.lift (imitates.closed.expect _ _)

theorem parameters : R (on.parameters steps) (parameters steps) := by
  induction steps with
  | zero => exact imitates.fail _
  | succ steps ih =>
      rw [parameters_succ]
      exact imitates.bind imitates.countParameter fun _ => imitates.bind (imitates.variableName _)
        fun _ => imitates.bind (imitates.lift (imitates.closed.defineVariable _)) fun _ =>
          imitates.bind (imitates.lift (imitates.closed.accept _)) fun _ => ite ih (imitates.pure _)

theorem functionBody (jumps : ImitatesJumps on R) (body : R inner inner') :
    R (on.functionBody inner steps) (functionBody inner' steps) := by
  have hrest : R (do
      expect .rightParen .parenAfterParameters
      expect .leftBrace .braceBeforeBody
      inner
      let function ← on.finishFunction
      let captures := (← Instrument.look).draft.captures
      on.leaveFunction
      emitWith .closure (← on.makeConstant (.object function))
      (captures.toList.forM fun capture => do
        emitByte (if capture.isLocal then 1 else 0)
        emitByte capture.index : CompileM Unit)) (do
      expect .rightParen .parenAfterParameters
      expect .leftBrace .braceBeforeBody
      inner'
      let function ← finishFunction
      let captures := (← get).draft.captures
      leaveFunction
      emitWith .closure (← Compiler.makeConstant (.object function))
      captures.toList.forM fun capture => do
        emitByte (if capture.isLocal then 1 else 0)
        emitByte capture.index) :=
    imitates.bind (imitates.lift (imitates.closed.expect _ _)) fun _ =>
      imitates.bind (imitates.lift (imitates.closed.expect _ _)) fun _ =>
        imitates.bind body fun _ =>
        imitates.bind jumps.finishFunction fun _ => imitates.read (fun _ _ => rfl) fun _ =>
          imitates.bind jumps.leaveFunction fun _ =>
            imitates.bind (imitates.makeConstant _) fun _ =>
            imitates.bind (imitates.lift (imitates.closed.emitWith _ _)) fun _ =>
              imitates.lift (imitates.closed.emitCaptures _)
  exact imitates.read (fun _ _ => rfl) fun _ =>
    imitates.bind (imitates.lift (imitates.closed.intern _)) fun _ =>
      imitates.bind (jumps.enterFunction _) fun _ =>
        imitates.bind (imitates.lift imitates.closed.openScope) fun _ =>
          imitates.bind (imitates.lift (imitates.closed.expect _ _)) fun _ =>
            imitates.bind (imitates.lift (imitates.closed.check _)) fun _ =>
              ite (imitates.bind imitates.parameters fun _ => hrest) hrest

theorem funDeclaration (statements : Statements on R) (body : R inner inner') :
    R (on.funDeclaration inner steps) (funDeclaration inner' steps) :=
  imitates.bind (imitates.variableName _) fun _ =>
    imitates.bind (imitates.lift imitates.closed.markInitialized) fun _ =>
      imitates.bind (statements.body body steps) fun _ =>
        imitates.lift (imitates.closed.defineVariable _)

/-- A statement that is related if it is a block or an expression. -/
theorem statementForms (statements : Statements on R) (operand : R value value')
    (part : R statement statement') (last : R (do
        if ← accept .leftBrace then
          openScope
          inner
          on.closeScope
        else Instrument.expressionStatement value) (do
        if ← accept .leftBrace then
          openScope
          inner'
          Compiler.closeScope
        else Compiler.expressionStatement value')) :
    R (on.statementWith value inner statement) (statementWith value' inner' statement') :=
  imitates.bind (imitates.lift (imitates.closed.accept _)) fun _ =>
    ite (imitates.printStatement operand) <|
  imitates.bind (imitates.lift (imitates.closed.accept _)) fun _ =>
    ite (statements.choice operand part) <|
  imitates.bind (imitates.lift (imitates.closed.accept _)) fun _ =>
    ite (imitates.returnStatement operand) <|
  imitates.bind (imitates.lift (imitates.closed.accept _)) fun _ =>
    ite (statements.loop operand part) <|
  imitates.bind (imitates.lift (imitates.closed.accept _)) fun _ =>
    ite (statements.rounds operand part) last

theorem statementWith (statements : Statements on R) (operand : R value value')
    (body : R inner inner') (part : R statement statement') :
    R (on.statementWith value inner statement) (statementWith value' inner' statement') :=
  imitates.statementForms statements operand part <|
    imitates.bind (imitates.lift (imitates.closed.accept _)) fun _ => ite
      (imitates.bind (imitates.lift imitates.closed.openScope) fun _ => imitates.bind body fun _ =>
        imitates.closeScope)
      (imitates.expressionStatement operand)

/-- The end of a declaration ends the panic. -/
theorem recover (synchronizing : P synchronize) :
    R (do if (← Instrument.look).panicking then synchronize)
      (do if (← get).panicking then synchronize) :=
  imitates.read (fun _ _ => rfl) fun _ => ite (imitates.lift synchronizing) (imitates.pure _)

end

/-! ### Declarations and programs -/

section

variable {value inner statement declaration : m Unit}
  {value' inner' statement' declaration' : CompileM Unit} {steps : Nat}

theorem declarationWith (statements : Statements on R) (synchronizing : P synchronize)
    (around : ∀ {x : m Unit} {y : CompileM Unit}, R x y → R (on.around x) y)
    (operand : R value value') (body : R inner inner') (part : R statement statement') :
    R (on.declarationWith value inner statement steps)
      (declarationWith value' inner' statement' steps) :=
  around <| imitates.bind (imitates.lift (imitates.closed.accept _)) fun _ => ite
    (imitates.bind (imitates.funDeclaration statements body) fun _ =>
      imitates.recover synchronizing)
    (imitates.bind (imitates.lift (imitates.closed.accept _)) fun _ => ite
      (imitates.bind (imitates.varDeclaration operand) fun _ => imitates.recover synchronizing)
      (imitates.bind part fun _ => imitates.recover synchronizing))

/-- Any statement and any declaration. -/
theorem statementAt_declarationAt (statements : Statements on R) (synchronizing : P synchronize)
    (around : ∀ {x : m Unit} {y : CompileM Unit}, R x y → R (on.around x) y)
    (values : ∀ steps, R (on.expression steps) (expression steps)) (steps : Nat) :
    R (on.statementAt steps) (statementAt steps) ∧
      R (on.declarationAt steps) (declarationAt steps) := by
  induction steps with
  | zero =>
      rw [statementAt.eq_1, declarationAt.eq_1, Instrument.statementAt.eq_1,
        Instrument.declarationAt.eq_1]
      exact ⟨imitates.fail _, imitates.fail _⟩
  | succ steps ih =>
      have hbody : R (Instrument.block (on.declarationAt steps) (steps + 1))
          (Compiler.block (declarationAt steps) (steps + 1)) := imitates.block ih.2
      have hstatement := imitates.statementWith statements (values (steps + 1)) hbody ih.1
      rw [statementAt.eq_2, declarationAt.eq_2, Instrument.statementAt.eq_2,
        Instrument.declarationAt.eq_2]
      exact ⟨hstatement, imitates.declarationWith statements synchronizing around
        (values (steps + 1)) hbody hstatement⟩

theorem programDeclarations (part : R declaration declaration') :
    R (Instrument.programDeclarations declaration steps)
      (programDeclarations declaration' steps) := by
  induction steps with
  | zero => exact imitates.fail _
  | succ steps ih =>
      exact imitates.bind (imitates.lift (imitates.closed.accept _)) fun _ =>
        ite (imitates.pure _) (imitates.bind part fun _ => ih)

/-- A whole program, except for its end. -/
theorem program (statements : Statements on R) (synchronizing : P synchronize)
    (around : ∀ {x : m Unit} {y : CompileM Unit}, R x y → R (on.around x) y)
    (values : ∀ steps, R (on.expression steps) (expression steps))
    (finishing : R on.finishFunction finishFunction) (steps : Nat) :
    R (on.program steps) (program steps) :=
  imitates.bind (imitates.lift imitates.closed.advance) fun _ =>
    imitates.bind (imitates.programDeclarations
      (imitates.statementAt_declarationAt statements synchronizing around values steps).2)
      fun _ => finishing

end

end Imitates

end Lox.Compiler
