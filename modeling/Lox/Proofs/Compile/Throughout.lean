import Lox.Proofs.Compile.Imitation

/-!
# What holds throughout the compiler

A compiler without an instrument imitates the compiler, so that what is said about instruments can
be said about the compiler itself. A property that sequences keep, and that the steps have in which
instruments may differ, holds of all steps of the compiler.

## Main definitions

* `Compiler.Throughout` — a property of all the steps that the forms are made of.
* `Compiler.Congruence` — a relation that passes from the parts of a form to the form.

## Main results

* `bare_program` — a compiler without an instrument is the compiler.
* `Throughout.expressionAt`, `Throughout.statementAt_declarationAt` — any expression, any statement
  and declaration.
* `Throughout.program` — whole programs.
-/

namespace Lox.Compiler

/-- A property of the steps of the compiler that sequences keep, and that all the steps have that
the forms are made of. -/
structure Throughout (P : ∀ ⦃α : Type⦄, CompileM α → Prop) : Prop extends Closed P where
  report (issue : Issue) : P (Compiler.complain issue)
  reportAhead (issue : Issue) : P (Compiler.complainAhead issue)
  edit (f : Draft → Draft) : P (Compiler.modifyDraft f)
  makeConstant (value : Value) : P (makeConstant value)
  lookUp (name : String) : P (lookUp name)
  enterFunction (name : Handle) : P (enterFunction name)
  allocateFunction : P allocateFunction
  leaveFunction : P leaveFunction

/-- A relation between steps of the compiler that sequences keep. A step that has a property is
related to itself. -/
structure Congruence (P : ∀ ⦃α : Type⦄, CompileM α → Prop)
    (R : ∀ ⦃α : Type⦄, CompileM α → CompileM α → Prop) : Prop where
  refl {α : Type} {x : CompileM α} (step : P x) : R x x
  bind {α β : Type} {x y : CompileM α} {f g : α → CompileM β} (first : R x y)
    (rest : ∀ a, R (f a) (g a)) : R (x >>= f) (y >>= g)
  read {α : Type} {f g : Compiler → CompileM α}
    (blind : ∀ c diagnostics, g { c with diagnostics } = g c) (rest : ∀ c, R (f c) (g c)) :
    R (get >>= f) (get >>= g)

namespace Throughout

variable {P : ∀ ⦃α : Type⦄, CompileM α → Prop} (throughout : Throughout P)

include throughout

/-! ### The steps that the forms are made of -/

theorem addLocal (name : String) : P (addLocal name) :=
  throughout.read (fun _ _ => rfl) fun _ => Closed.ite (throughout.report _) (throughout.edit _)

theorem patchJump (operand : Nat) : P (patchJump operand) :=
  throughout.toClosed.patchJump (fun _ _ => throughout.edit _) operand

theorem nameConstant (name : String) : P (nameConstant name) :=
  throughout.bind (throughout.intern name) fun _ => throughout.makeConstant _

theorem emitConstant (value : Value) : P (emitConstant value) :=
  throughout.bind (throughout.makeConstant value) fun _ => throughout.emitWith _ _

theorem resolveCapture (name : String) : P (resolveCapture name) :=
  throughout.toClosed.resolveCapture throughout.report (throughout.lookUp name)

theorem resolve (name : String) : P (resolve name) :=
  throughout.toClosed.resolve throughout.report throughout.makeConstant (throughout.lookUp name)

theorem countArgument (count : Nat) : P (countArgument count) :=
  Closed.ite (throughout.report _) (throughout.pure _)

theorem countParameter : P countParameter :=
  throughout.read (fun _ _ => rfl) fun _ =>
    Closed.ite (throughout.reportAhead _) (throughout.edit _)

theorem finishFunction : P finishFunction :=
  throughout.bind throughout.emitReturn fun _ => throughout.allocateFunction

end Throughout

/-! ### No instrument -/

namespace Congruence

variable {P : ∀ ⦃α : Type⦄, CompileM α → Prop} {R : ∀ ⦃α : Type⦄, CompileM α → CompileM α → Prop}
  (congruence : Congruence P R) (throughout : Throughout P)

include congruence throughout

theorem imitates : Imitates (Instrument.bare : Instrument CompileM) P R where
  closed := throughout.toClosed
  lift step := congruence.refl step
  pure a := congruence.refl (throughout.pure a)
  bind first rest := congruence.bind first rest
  read blind rest := congruence.read blind rest
  makeConstant value := congruence.refl (throughout.makeConstant value)
  addLocal name := congruence.refl (throughout.addLocal name)
  resolve name := congruence.refl (throughout.resolve name)
  closeScope := congruence.refl throughout.closeScope
  countParameter := congruence.refl throughout.countParameter

theorem jumps : ImitatesJumps (Instrument.bare : Instrument CompileM) R where
  emitJump op := congruence.refl (throughout.emitJump op)
  patchJump operand := congruence.refl (throughout.patchJump operand)
  emitLoop target := congruence.refl (throughout.emitLoop target)
  enterFunction name := congruence.refl (throughout.enterFunction name)
  finishFunction := congruence.refl throughout.finishFunction
  leaveFunction := congruence.refl throughout.leaveFunction

theorem operators : Operators (Instrument.bare : Instrument CompileM) R where
  call value _ := (congruence.imitates throughout).callOperator
    (fun count => congruence.refl (throughout.countArgument count))
    (fun _ => congruence.refl (throughout.emitWith _ _)) value
  and right := (congruence.imitates throughout).andOperator (congruence.jumps throughout) right
  or right := (congruence.imitates throughout).orOperator (congruence.jumps throughout) right

theorem statements : Statements (Instrument.bare : Instrument CompileM) R where
  choice condition part :=
    (congruence.imitates throughout).ifStatement (congruence.jumps throughout) condition part
  loop condition part :=
    (congruence.imitates throughout).whileStatement (congruence.jumps throughout) condition part
  rounds clause part :=
    (congruence.imitates throughout).forStatement (congruence.jumps throughout) clause part
  body block _ := (congruence.imitates throughout).functionBody (congruence.jumps throughout) block

end Congruence

/-- The same step, which has a property. -/
def Shared (P : ∀ ⦃α : Type⦄, CompileM α → Prop) ⦃α : Type⦄ (x y : CompileM α) : Prop :=
  x = y ∧ P y

theorem Closed.shared {P : ∀ ⦃α : Type⦄, CompileM α → Prop} (closed : Closed P) :
    Congruence P (Shared P) where
  refl step := ⟨rfl, step⟩
  bind first rest :=
    ⟨by rw [first.1, funext fun a => (rest a).1], closed.bind first.2 fun a => (rest a).2⟩
  read blind rest := ⟨bind_congr fun c => (rest c).1, closed.read blind fun c => (rest c).2⟩

namespace Throughout

variable {P : ∀ ⦃α : Type⦄, CompileM α → Prop} (throughout : Throughout P)

include throughout

theorem imitates : Imitates (Instrument.bare : Instrument CompileM) P (Shared P) :=
  throughout.shared.imitates throughout

theorem jumps : ImitatesJumps (Instrument.bare : Instrument CompileM) (Shared P) :=
  throughout.shared.jumps throughout

theorem operators : Operators (Instrument.bare : Instrument CompileM) (Shared P) :=
  throughout.shared.operators throughout

theorem statements : Statements (Instrument.bare : Instrument CompileM) (Shared P) :=
  throughout.shared.statements throughout

/-! ### Names -/

theorem declareVariable : P declareVariable := throughout.imitates.declareVariable.2

/-! ### Expressions -/

section

variable {parse : Precedence → CompileM Unit} {value : CompileM Unit} {steps : Nat}

theorem operand (parts : ∀ least, P (parse least)) (mayAssign : Bool) (form : OperandForm) :
    P (operand parse mayAssign form) :=
  (throughout.imitates.operand (fun least => ⟨rfl, parts least⟩) mayAssign form).2

theorem arguments (whole : P value) (count : Nat) : P (arguments value steps count) :=
  (throughout.imitates.arguments (fun count => ⟨rfl, throughout.countArgument count⟩)
    ⟨rfl, whole⟩ count).2

theorem operator (parts : ∀ least, P (parse least)) (form : OperatorForm) :
    P (operator parse steps form) :=
  (throughout.imitates.operator throughout.operators (fun least => ⟨rfl, parts least⟩) form).2

theorem operatorsAt (parts : ∀ least, P (parse least)) (least : Precedence) :
    P (Compiler.operators parse least steps) :=
  (throughout.imitates.operators throughout.operators (fun least => ⟨rfl, parts least⟩) least).2

theorem expressionWith (parts : ∀ least, P (parse least)) (least : Precedence) :
    P (expressionWith parse steps least) :=
  (throughout.imitates.expressionWith throughout.operators (fun least => ⟨rfl, parts least⟩)
    least).2

/-- Any expression. -/
theorem expressionAt (steps : Nat) (least : Precedence) : P (expressionAt steps least) :=
  (throughout.imitates.expressionAt throughout.operators steps least).2

end

/-! ### Statements -/

section

variable {value inner statement declaration : CompileM Unit} {steps : Nat}

theorem expressionStatement (part : P value) : P (expressionStatement value) :=
  (throughout.imitates.expressionStatement ⟨rfl, part⟩).2

theorem returnStatement (part : P value) : P (returnStatement value) :=
  (throughout.imitates.returnStatement ⟨rfl, part⟩).2

theorem varDeclaration (part : P value) : P (varDeclaration value) :=
  (throughout.imitates.varDeclaration ⟨rfl, part⟩).2

theorem declarations (part : P declaration) : P (declarations declaration steps) :=
  (throughout.imitates.declarations ⟨rfl, part⟩).2

theorem block (part : P declaration) : P (block declaration steps) :=
  (throughout.imitates.block ⟨rfl, part⟩).2

theorem parameters : P (parameters steps) := throughout.imitates.parameters.2

theorem functionBody (body : P inner) : P (functionBody inner steps) :=
  (throughout.imitates.functionBody throughout.jumps ⟨rfl, body⟩).2

theorem funDeclaration (body : P inner) : P (funDeclaration inner steps) :=
  (throughout.imitates.funDeclaration throughout.statements ⟨rfl, body⟩).2

theorem statementWith (operand : P value) (body : P inner) (part : P statement) :
    P (statementWith value inner statement) :=
  (throughout.imitates.statementWith throughout.statements ⟨rfl, operand⟩ ⟨rfl, body⟩
    ⟨rfl, part⟩).2

/-- The end of a declaration ends the panic. -/
theorem recover (synchronizing : P synchronize) :
    P (do if (← get).panicking then synchronize : CompileM Unit) :=
  (throughout.imitates.recover synchronizing).2

/-- Any statement and any declaration. -/
theorem statementAt_declarationAt (synchronizing : P synchronize) (steps : Nat) :
    P (statementAt steps) ∧ P (declarationAt steps) :=
  (throughout.imitates.statementAt_declarationAt throughout.statements synchronizing id
    (fun steps => throughout.imitates.expressionAt throughout.operators steps .assignment)
    steps).imp And.right And.right

theorem programDeclarations (part : P declaration) : P (programDeclarations declaration steps) :=
  (throughout.imitates.programDeclarations ⟨rfl, part⟩).2

/-- A whole program. -/
theorem program (synchronizing : P synchronize) (steps : Nat) : P (program steps) :=
  (throughout.imitates.program throughout.statements synchronizing id
    (fun steps => throughout.imitates.expressionAt throughout.operators steps .assignment)
    ⟨rfl, throughout.finishFunction⟩ steps).2

end

end Throughout

/-! ### The forms without an instrument -/

/-- Something that is true of everything holds of all steps. -/
theorem throughout_true : Throughout fun _ _ => True := by
  constructor
  · constructor <;> intros <;> trivial
  all_goals intros; trivial

section

variable {value inner statement declaration : CompileM Unit} {steps : Nat}

theorem bare_block : Instrument.block declaration steps = block declaration steps :=
  (throughout_true.imitates.block ⟨rfl, trivial⟩).1

theorem bare_statementWith :
    Instrument.bare.statementWith value inner statement = statementWith value inner statement :=
  (throughout_true.imitates.statementWith throughout_true.statements ⟨rfl, trivial⟩ ⟨rfl, trivial⟩
    ⟨rfl, trivial⟩).1

theorem bare_declarationWith : Instrument.bare.declarationWith value inner statement steps =
    declarationWith value inner statement steps :=
  (throughout_true.imitates.declarationWith throughout_true.statements trivial id ⟨rfl, trivial⟩
    ⟨rfl, trivial⟩ ⟨rfl, trivial⟩).1

/-- A compiler without an instrument is the compiler. -/
theorem bare_program : Instrument.bare.program steps = program steps :=
  (throughout_true.imitates.program throughout_true.statements trivial id
    (fun steps => throughout_true.imitates.expressionAt throughout_true.operators steps .assignment)
    ⟨rfl, trivial⟩ steps).1

end

end Lox.Compiler
