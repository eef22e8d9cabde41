import Lox.Proofs.Compile.Acceptance.Expressions

/-!
# Statements in shape are accepted

The compiler gives an `else` to the nearest `if` that has none, while the rules leave that open. So
a derivable statement is first brought into the shape in which the compiler reads it, which may
belong to another derivation.

## Main definitions

* `statementOf` — what a statement is, by its first token.
* `Shaped` — statements in the shape in which they are read.

## Main results

* `Shaped.choice` — an `else` finds an `if`.
* `Shaped.eats` — statements that have a shape.
-/

namespace Lox.Compiler

open Grammar

variable {n : Nat} {ks ls cond yes no body : List TokenKind} {next : TokenKind → Prop}
  {kind : TokenKind} {α : Type} {isOpen : Bool}

/-- What may stand behind a statement. If the statement waits for an `else`, it would take one. -/
abbrev Behind (isOpen : Bool) (kind : TokenKind) : Prop := isOpen = true → kind ≠ .elseWord

/-! ### Parts of statements -/

theorem stops_semicolon : Stops .assignment .semicolon := by decide

theorem stops_rightParen : Stops .assignment .rightParen := by decide

/-- An expression and the token that ends it. -/
theorem Eats.value {what : Expectation} {x : CompileM α} (value : Derives [.value] ks)
    (ends : Stops .assignment kind) (others : Eats ls next x) :
    Eats (ks ++ kind :: ls) next (do
      expression n
      Compiler.expect kind what
      x) :=
  (expression_eats value n).bind (fun _ => .expect others) fun _ _ => ends

theorem expressionStatement_eats (value : Derives [.value] ks) :
    Eats (ks ++ [.semicolon]) Anything (expressionStatement (expression n)) :=
  .value value stops_semicolon (emit_idles _)

theorem printStatement_eats (value : Derives [.value] ks) :
    Eats (ks ++ [.semicolon]) Anything (printStatement (expression n)) :=
  .value value stops_semicolon (emit_idles _)

/-- A return, behind the complaint about its place. -/
theorem returnStatement_eats {x : CompileM Unit}
    (eats : Eats ks Anything (do if ← accept .semicolon then emitReturn else x)) :
    Eats ks Anything (do
      if (← get).draft.isScript then complain .returnFromScript
      if ← accept .semicolon then emitReturn else x) :=
  .read (fun _ _ => rfl) fun _ => .ite (.idle (complain_idles rfl) fun _ => eats) eats

theorem returnStatement_eats_none :
    Eats [.semicolon] Anything (returnStatement (expression n)) :=
  returnStatement_eats (.accept emitReturn_idles
    (.bind (Reports.throughout.expressionAt n _) fun _ =>
      .bind (Reports.throughout.expect _ _) fun _ => Reports.throughout.emit _))

theorem returnStatement_eats_value (value : Derives [.value] ks) :
    Eats (ks ++ [.semicolon]) Anything (returnStatement (expression n)) := by
  refine returnStatement_eats (.skip Reports.throughout.emitReturn
    (.value value stops_semicolon (emit_idles _))
    fun rest _ => ?_)
  rw [List.append_assoc]
  exact front_ne value (by decide) rfl _

/-- The end of a declaration of a variable. -/
theorem varEnd_eats (global : UInt8) : Eats [.semicolon] Anything (do
    expect .semicolon .semicolonAfterVariable
    defineVariable global) :=
  .expect (defineVariable_idles global)

theorem varDeclaration_eats_none :
    Eats [.identifier, .semicolon] Anything (varDeclaration (expression n)) :=
  (variableName_eats _).bind (fun global => .skip
    (.bind (Reports.throughout.expressionAt n _) fun _ => (varEnd_eats global).reports)
    (.idle (emit_idles _) fun _ => varEnd_eats global)
    fun _ _ => (by decide : TokenKind.semicolon ≠ .equal)) fun _ _ => trivial

theorem varDeclaration_eats_value (value : Derives [.value] ks) :
    Eats (.identifier :: .equal :: (ks ++ [.semicolon])) Anything (varDeclaration (expression n)) :=
  (variableName_eats _).bind (fun global => .accept
    (.value value stops_semicolon (defineVariable_idles global))
    (.bind (Reports.throughout.emit _) fun _ => (varEnd_eats global).reports)) fun _ _ => trivial

/-! ### Control flow -/

theorem ifStatement_eats_then {statement : CompileM Unit} (value : Derives [.value] cond)
    (part : Eats yes (Behind isOpen) statement) :
    Eats (.leftParen :: (cond ++ .rightParen :: yes)) (Behind true)
      (ifStatement (expression n) statement) := by
  refine .expect (.value value stops_rightParen (.idle (emitJump_idles _) fun toElse =>
    .idle (emit_idles _) fun _ => part.close (fun _ => .idle (emitJump_idles _) fun toEnd =>
      .idle (patchJump_idles toElse) fun _ => .idle (emit_idles _) fun _ => ?_)
        fun _ hnext _ => hnext rfl))
  exact .skip (.bind part.reports fun _ => Reports.throughout.patchJump toEnd)
    ((patchJump_idles toEnd).mono fun _ _ => trivial) fun _ hnext => hnext rfl

theorem ifStatement_eats_else {statement : CompileM Unit} (value : Derives [.value] cond)
    (first : Eats yes (Behind false) statement) (second : Eats no (Behind isOpen) statement) :
    Eats (.leftParen :: (cond ++ .rightParen :: (yes ++ .elseWord :: no))) (Behind isOpen)
      (ifStatement (expression n) statement) :=
  .expect (.value value stops_rightParen (.idle (emitJump_idles _) fun toElse =>
    .idle (emit_idles _) fun _ => first.bind (fun _ => .idle (emitJump_idles _) fun toEnd =>
      .idle (patchJump_idles toElse) fun _ => .idle (emit_idles _) fun _ =>
        .accept (second.done fun _ => patchJump_idles toEnd) (Reports.throughout.patchJump toEnd))
          fun _ _ h => by cases h))

theorem whileStatement_eats {statement : CompileM Unit} (value : Derives [.value] cond)
    (part : Eats body (Behind isOpen) statement) :
    Eats (.leftParen :: (cond ++ .rightParen :: body)) (Behind isOpen)
      (whileStatement (expression n) statement) :=
  .idle codeSize_idles fun _ => .expect (.value value stops_rightParen (.idle (emitJump_idles _)
    fun toEnd => .idle (emit_idles _) fun _ => part.done fun _ => .idle (emitLoop_idles _) fun _ =>
      .idle (patchJump_idles toEnd) fun _ => emit_idles _))

/-- The clauses of a loop behind its parenthesis. -/
structure Clauses (initial test increment : List TokenKind) : Prop where
  initial : ∀ n, Eats initial Anything (forInitializer (expression n))
  test : ∀ n, Eats test Anything (forCondition (expression n))
  increment : ∀ n start, Eats increment Anything (forIncrement (expression n) start)

theorem forStatement_eats {initial test increment : List TokenKind} {statement : CompileM Unit}
    (clauses : Clauses initial test increment) (part : Eats body (Behind isOpen) statement) :
    Eats (.leftParen :: (initial ++ (test ++ (increment ++ body)))) (Behind isOpen)
      (forStatement (expression n) statement) := by
  refine .idle openScope_idles fun _ => .expect ((clauses.initial n).bind (fun _ =>
    .idle codeSize_idles fun _ => (clauses.test n).bind (fun toEnd =>
      (clauses.increment n _).bind (fun _ => part.done fun _ => .idle (emitLoop_idles _)
        fun _ => ?_) fun _ _ => trivial) fun _ _ => trivial) fun _ _ => trivial)
  cases toEnd with
  | none => exact closeScope_idles
  | some operand =>
      exact .idle (patchJump_idles operand) fun _ => .idle (emit_idles _) fun _ => closeScope_idles

theorem forInitializer_eats_none : Eats [.semicolon] Anything (forInitializer (expression n)) :=
  .accept (.pure _) (.bind (Reports.throughout.accept _) fun _ => .ite
    (Reports.throughout.varDeclaration (Reports.throughout.expressionAt n _))
    (Reports.throughout.expressionStatement (Reports.throughout.expressionAt n _)))

theorem forInitializer_eats_variable (eats : Eats ks Anything (varDeclaration (expression n))) :
    Eats (.varWord :: ks) Anything (forInitializer (expression n)) :=
  .skip (.pure _) (.accept eats
    (Reports.throughout.expressionStatement (Reports.throughout.expressionAt n _)))
    fun _ _ => (by decide : TokenKind.varWord ≠ .semicolon)

theorem forInitializer_eats_value (value : Derives [.value] ks) :
    Eats (ks ++ [.semicolon]) Anything (forInitializer (expression n)) := by
  refine .skip (.pure _)
    (.skip (Reports.throughout.varDeclaration (Reports.throughout.expressionAt n _))
    (expressionStatement_eats value) fun rest _ => ?_) fun rest _ => ?_ <;>
  · rw [List.append_assoc]
    exact front_ne value (by decide) rfl _

theorem forCondition_eats_none : Eats [.semicolon] Anything (forCondition (expression n)) :=
  .accept (.pure _) (.bind (Reports.throughout.expressionAt n _) fun _ =>
    .bind (Reports.throughout.expect _ _) fun _ =>
    .bind (Reports.throughout.emitJump _) fun _ =>
      .bind (Reports.throughout.emit _) fun _ => .pure _)

theorem forCondition_eats_value (value : Derives [.value] ks) :
    Eats (ks ++ [.semicolon]) Anything (forCondition (expression n)) := by
  refine .skip (.pure _) (.value value stops_semicolon (.idle (emitJump_idles _) fun _ =>
    .idle (emit_idles _) fun _ => .pure _)) fun rest _ => ?_
  rw [List.append_assoc]
  exact front_ne value (by decide) rfl _

theorem forIncrement_eats_none (start : Nat) :
    Eats [.rightParen] Anything (forIncrement (expression n) start) :=
  .accept (.pure _) (.bind (Reports.throughout.emitJump _) fun _ =>
    .bind Reports.throughout.codeSize fun _ =>
    .bind (Reports.throughout.expressionAt n _) fun _ => .bind (Reports.throughout.emit _) fun _ =>
      .bind (Reports.throughout.expect _ _) fun _ => .bind (Reports.throughout.emitLoop _) fun _ =>
        .bind (Reports.throughout.patchJump _) fun _ => .pure _)

theorem forIncrement_eats_value (value : Derives [.value] ks) (start : Nat) :
    Eats (ks ++ [.rightParen]) Anything (forIncrement (expression n) start) := by
  refine .skip (.pure _) (.idle (emitJump_idles _) fun _ => .idle codeSize_idles fun _ =>
    (expression_eats value n).bind (fun _ => .idle (emit_idles _) fun _ =>
      .expect (.idle (emitLoop_idles _) fun _ => .idle (patchJump_idles _) fun _ => .pure _))
        fun _ _ => stops_rightParen) fun rest _ => ?_
  rw [List.append_assoc]
  exact front_ne value (by decide) rfl _

/-! ### Any statement -/

/-- The statement that begins with a token. -/
def statementOf (expression block statement : CompileM Unit) : TokenKind → CompileM Unit
  | .printWord => do
    advance
    printStatement expression
  | .ifWord => do
    advance
    ifStatement expression statement
  | .returnWord => do
    advance
    returnStatement expression
  | .whileWord => do
    advance
    whileStatement expression statement
  | .forWord => do
    advance
    forStatement expression statement
  | .leftBrace => do
    advance
    openScope
    block
    closeScope
  | _ => expressionStatement expression

/-- A token that is looked for decides. -/
theorem accept_apply (kind : TokenKind) (x y : CompileM Unit) (c : Compiler) :
    (do if ← accept kind then x else y) c =
      if c.current.kind = kind then (do advance; x) c else y c := by
  by_cases hkind : c.current.kind = kind
  · obtain ⟨d, hadvance⟩ : ∃ d, advance c = .ok () d := ⟨_, rfl⟩
    rw [bind_of_ok (accept_of_eq hkind hadvance), if_pos hkind, bind_of_ok hadvance]
    rfl
  · rw [bind_of_ok (accept_of_ne hkind), if_neg hkind]
    rfl

/-- The first token of a statement decides what it is. -/
theorem statementWith_apply (expression block statement : CompileM Unit) (c : Compiler) :
    statementWith expression block statement c =
      statementOf expression block statement c.current.kind c := by
  simp only [statementWith, accept_apply]
  generalize c.current.kind = kind
  cases kind <;> rfl

/-- A statement that begins with a token. -/
theorem statementAt_eats (begins : ∀ rest, next (front rest) → front (ks ++ rest) = kind)
    (eats : ∀ n, Eats ks next (statementOf (expression (n + 1))
      (block (declarationAt n) (n + 1)) (statementAt n) kind)) (n : Nat) :
    Eats ks next (statementAt n) := by
  refine ⟨(statementAt_declarationAt_reports n).1, fun {rest c _ _} faces hnext run => ?_⟩
  cases n with
  | zero =>
      rw [statementAt] at run
      cases run
  | succ n =>
      have hkind : c.current.kind = kind := faces.current.trans (begins rest hnext)
      rw [statementAt, statementWith_apply, hkind] at run
      exact (eats n).eats faces hnext run

/-- A statement that is an expression. -/
theorem statementOf_of_starts {expression block statement : CompileM Unit}
    (starts : startsExpression kind = true) :
    statementOf expression block statement kind = expressionStatement expression := by
  cases kind <;> first | rfl | cases starts

/-! ### The shape of a statement -/

/-- Statements in the shape in which the compiler reads them: an `else` belongs to the nearest
`if`. A statement is open if it would take an `else` that follows. -/
inductive Shaped : Bool → List TokenKind → Prop
  | plain {ks : List TokenKind} : (∀ n, Eats ks Anything (statementAt n)) → Shaped false ks
  | ifThen {isOpen : Bool} {cond yes : List TokenKind} : Derives [.value] cond →
      Shaped isOpen yes → Shaped true (.ifWord :: .leftParen :: (cond ++ .rightParen :: yes))
  | ifElse {isOpen : Bool} {cond yes no : List TokenKind} : Derives [.value] cond →
      Shaped false yes → Shaped isOpen no → Shaped isOpen
        (.ifWord :: .leftParen :: (cond ++ .rightParen :: (yes ++ .elseWord :: no)))
  | while {isOpen : Bool} {cond body : List TokenKind} : Derives [.value] cond →
      Shaped isOpen body →
      Shaped isOpen (.whileWord :: .leftParen :: (cond ++ .rightParen :: body))
  | for {isOpen : Bool} {initial test increment body : List TokenKind} :
      Clauses initial test increment → Shaped isOpen body →
      Shaped isOpen (.forWord :: .leftParen :: (initial ++ (test ++ (increment ++ body))))

/-- An `else` behind an open statement goes to one of its `if`s. -/
theorem Shaped.attach (first : Shaped true yes) (second : Shaped isOpen no) :
    ∃ isOpen, Shaped isOpen (yes ++ .elseWord :: no) := by
  generalize hopen : true = opens at first
  induction first with
  | plain => cases hopen
  | @ifThen inner cond ls value part ih =>
      cases inner with
      | false => exact ⟨isOpen, by simpa using Shaped.ifElse value part second⟩
      | true =>
          obtain ⟨_, hshaped⟩ := ih rfl
          exact ⟨true, by simpa using Shaped.ifThen value hshaped⟩
  | ifElse value closed _ _ ih =>
      obtain ⟨_, hshaped⟩ := ih hopen
      exact ⟨_, by simpa using Shaped.ifElse value closed hshaped⟩
  | «while» value _ ih =>
      obtain ⟨_, hshaped⟩ := ih hopen
      exact ⟨_, by simpa using Shaped.while value hshaped⟩
  | «for» clauses _ ih =>
      obtain ⟨_, hshaped⟩ := ih hopen
      exact ⟨_, by simpa using Shaped.for clauses hshaped⟩

/-- A choice with two branches, whichever `if` its `else` goes to. -/
theorem Shaped.choice {opens : Bool} (value : Derives [.value] cond) (first : Shaped opens yes)
    (second : Shaped isOpen no) : ∃ isOpen, Shaped isOpen
      (.ifWord :: .leftParen :: (cond ++ .rightParen :: (yes ++ .elseWord :: no))) := by
  cases opens with
  | false => exact ⟨isOpen, .ifElse value first second⟩
  | true =>
      obtain ⟨_, hshaped⟩ := first.attach second
      exact ⟨true, .ifThen value hshaped⟩

/-- A statement that has a shape is consumed in front of what may stand behind it. -/
theorem Shaped.eats (shaped : Shaped isOpen ks) (n : Nat) :
    Eats ks (Behind isOpen) (statementAt n) := by
  induction shaped generalizing n with
  | plain eats => exact (eats n).mono fun _ _ => trivial
  | ifThen value _ ih =>
      exact statementAt_eats (fun _ _ => rfl)
        (fun n => .advance (ifStatement_eats_then value (ih n))) n
  | ifElse value _ _ first second =>
      exact statementAt_eats (fun _ _ => rfl) (fun n =>
        .advance (ifStatement_eats_else value (first n) (second n))) n
  | «while» value _ ih =>
      exact statementAt_eats (fun _ _ => rfl)
        (fun n => .advance (whileStatement_eats value (ih n))) n
  | «for» clauses _ ih =>
      exact statementAt_eats (fun _ _ => rfl)
        (fun n => .advance (forStatement_eats clauses (ih n))) n

end Lox.Compiler
