import Lox.Proofs.Compile.Totality.Expressions

/-!
# Compiling statements always ends

Every round of a loop takes a token, and so does a declaration, unless it stands at the end of the
input. A statement may begin to write before it takes a token, but that token repays it.

## Main definitions

* `Steadfast` — a compiler of statements, next to the checked one.

## Main results

* `functionBody_works` — the draft of a function pays for the function.
* `declarationWith_works` — a declaration takes a token, also if it has to recover.
* `statementAt_declarationAt_works` — any statement and any declaration.
-/

namespace Lox

namespace Compiler

variable {L : Limits} {tidy : Bool} {cost depth depth' n steps : Nat} {c c' : Compiler} {α : Type}

/-! ### Statements -/

/-- A compiler of statements and the checked one, if no more than `n` tokens are to be taken. What
it writes before it takes a token is repaid by that token. -/
def Steadfast (L : Limits) (n : Nat) (x y : CompileM Unit) : Prop :=
  ∀ ⦃c depth⦄, c.Sound L depth → c.unread ≤ n →
    Works L false 16 depth c (fun _ c' => c.Gains 0 c') (x c) (y c)

/-- A statement that has been paid for by its first token. -/
theorem Works.settled {price : Nat} {post : Unit → Compiler → Prop}
    {r s : EStateM.Result Fault Compiler Unit} (works : Works L false cost depth c' post r s)
    (follows : c.Follows L false 0 depth' c') (less : c'.unread < c.unread)
    (gain : c'.worth + price ≤ c.worth) (enough : cost ≤ price) :
    Works L false 16 depth c (fun _ c'' => c.Gains 0 c'') r s := by
  refine works.rebase (by omega) fun _ c'' follows' _ => ?_
  have hunread := follows'.unread
  have hworth := follows'.worth
  exact ⟨{ follows.trans follows' with worth := by omega }, fun _ => ⟨by omega, by omega⟩⟩

section

variable {expression expression' statement statement' declaration declaration' block block' :
  CompileM Unit}

theorem printStatement_works (value : Reliable L n expression expression')
    (sound : c.Sound L depth) (left : c.unread ≤ n) :
    Works L false 5 depth c Any (Instrument.printStatement expression c)
      (printStatement expression' c) := by
  show Works L false (0 + (0 + 5)) _ _ _ _ _
  exact (value sound left).loosen.bind fun _ _ h₁ _ => (expect_works h₁.sound _ _).bind
    fun _ _ h₂ _ => emit_works h₂.sound _

theorem expressionStatement_works (value : Reliable L n expression expression') :
    Steadfast L n (Instrument.expressionStatement expression)
      (expressionStatement expression') := by
  intro c depth sound left
  show Works L false (0 + (0 + 16)) _ _ _ _ _
  refine (value sound left).loosen.bind fun _ c₁ h₁ hgains => (expect_works h₁.sound _ _).bind
    fun _ c₂ h₂ _ => ((emit_works h₂.sound _).imp fun _ c₃ h₃ _ hpos => ?_).mono (by omega)
  obtain ⟨hless, hworth⟩ := hgains hpos
  have := h₂.unread
  have := h₃.unread
  have := h₂.worth
  have := h₃.worth
  omega

theorem returnStatement_works (value : Reliable L n expression expression')
    (sound : c.Sound L depth) (left : c.unread ≤ n) :
    Works L false 10 depth c Any (Instrument.returnStatement expression c)
      (returnStatement expression' c) := by
  have hrest : ∀ {c : Compiler}, c.Sound L depth → c.unread ≤ n → Works L false 10 depth c Any
      ((do
        if ← accept .semicolon then emitReturn
        else
          expression
          expect .semicolon .semicolonAfterReturnValue
          emit .giveBack) c)
      ((do
        if ← accept .semicolon then emitReturn
        else
          expression'
          expect .semicolon .semicolonAfterReturnValue
          emit .giveBack) c) := fun {c} sound left => by
    refine .accept sound (by decide) (fun c₁ h₁ _ hgain => ?_) fun _ => ?_
    · exact (((emitReturn_works h₁.sound).repaid h₁ hgain (Token.le_price (by omega))).any).mono
        (Nat.zero_le _)
    · show Works L false (0 + (0 + 10)) _ _ _ _ _
      exact (value sound left).loosen.bind fun _ _ h₁ _ => (expect_works h₁.sound _ _).bind
        fun _ _ h₂ _ => (emit_works h₂.sound _).mono (by omega)
  refine .read (.ite (fun _ => ?_) fun _ => hrest sound left)
  show Works L false (0 + 10) _ _ _ _ _
  exact (complain_works sound _).bind fun _ _ h₁ _ => hrest h₁.sound (h₁.unread.trans left)

theorem varDeclaration_works (value : Reliable L n expression expression')
    (sound : c.Sound L depth) (left : c.unread ≤ n) :
    Works L false (127 + c.previous.lexeme.utf8ByteSize) depth c Any
      (checker.varDeclaration expression c) (varDeclaration expression' c) := by
  have hrest : ∀ (global : UInt8) {c : Compiler}, c.Sound L depth →
      (0 < depth → 2 ≤ c.draft.locals.length) → Works L true (0 + 10) depth c Any
        ((do
          expect .semicolon .semicolonAfterVariable
          defineVariable global) c)
        ((do
          expect .semicolon .semicolonAfterVariable
          defineVariable global) c) := fun global _ sound named =>
    (expect_works sound _ _).bind fun _ _ h _ =>
      defineVariable_works h.sound (fun hpos => h.locals rfl ▸ named hpos) global
  rw [show 127 + c.previous.lexeme.utf8ByteSize = 112 + c.previous.lexeme.utf8ByteSize +
    15 by omega]
  refine (variableName_works sound _).bind fun global c₁ h₁ ⟨named, _⟩ =>
    Works.loosen (.accept h₁.sound (by decide) (fun c₂ h₂ _ hgain => ?_) fun _ => ?_)
  · refine ((((value h₂.sound ((h₂.unread.trans h₁.unread).trans left)).bind fun _ c₃ h₃ _ =>
      hrest global h₃.sound fun hpos => ?_).repaid h₂ hgain (Token.le_price (by omega))).any).mono
        (Nat.zero_le _)
    rw [h₃.locals rfl, h₂.locals rfl]
    exact named hpos
  · exact ((emit_works h₁.sound _).bind fun _ c₂ h₂ _ =>
      hrest global h₂.sound fun hpos => h₂.locals rfl ▸ named hpos).mono (by omega)

/-! ### Control flow -/

theorem ifStatement_works (value : Reliable L n expression expression')
    (part : Steadfast L n statement statement') (sound : c.Sound L depth) (left : c.unread ≤ n) :
    Works L false 72 depth c Any (checker.ifStatement expression statement c)
      (ifStatement expression' statement' c) := by
  show Works L false (0 + (0 + (0 + (15 + (5 + (16 + (15 + (0 + (5 + 16)))))))))  _ _ _ _ _
  refine (expect_works sound _ _).bind fun _ c₁ h₁ _ => .bind (value h₁.sound ?_).loosen
    fun _ c₂ h₂ _ => (expect_works h₂.sound _ _).bind fun _ c₃ h₃ _ =>
      (emitJump_works h₃.sound _).bind fun toElse c₄ h₄ helse => (emit_works h₄.sound _).bind
        fun _ c₅ h₅ _ => .bind (part h₅.sound ?_).any fun _ c₆ h₆ _ =>
          (emitJump_works h₆.sound _).bind fun toEnd c₇ h₇ hend =>
            .bind (patchJump_works h₇.sound ?_) fun _ c₈ h₈ _ =>
              (emit_works h₈.sound _).bind fun _ c₉ h₉ _ =>
                .accept h₉.sound (by decide) (fun d hd _ hgain => ?_) fun _ => ?_
  · exact h₁.unread.trans left
  · exact h₅.unread.trans (h₄.unread.trans (h₃.unread.trans
      (h₂.unread.trans (h₁.unread.trans left))))
  · have := h₅.code
    have := h₆.code
    have := h₇.code
    omega
  · refine ((((part hd.sound ?_).bind fun _ e he _ => patchJump_works he.sound ?_).repaid hd hgain
      (Token.le_price (by omega))).any).mono (Nat.zero_le _)
    · have := h₁.unread
      have := h₂.unread
      have := h₃.unread
      have := h₄.unread
      have := h₅.unread
      have := h₆.unread
      have := h₇.unread
      have := h₈.unread
      have := h₉.unread
      have := hd.unread
      omega
    · have := h₈.code
      have := h₉.code
      have := hd.code
      have := he.code
      omega
  · have := h₈.code
    have := h₉.code
    exact (patchJump_works h₉.sound (by omega)).mono (Nat.zero_le _)

theorem whileStatement_works (value : Reliable L n expression expression')
    (part : Steadfast L n statement statement') (sound : c.Sound L depth) (left : c.unread ≤ n) :
    Works L false 56 depth c Any (checker.whileStatement expression statement c)
      (whileStatement expression' statement' c) := by
  show Works L false (0 + (0 + (0 + (0 + (15 + (5 + (16 + (15 + (0 + 5))))))))) _ _ _ _ _
  refine (codeSize_works sound).bind fun start c₁ h₁ hstart => (expect_works h₁.sound _ _).bind
    fun _ c₂ h₂ _ => .bind (value h₂.sound ?_).loosen fun _ c₃ h₃ _ =>
      (expect_works h₃.sound _ _).bind fun _ c₄ h₄ _ => (emitJump_works h₄.sound _).bind
        fun toEnd c₅ h₅ hend => (emit_works h₅.sound _).bind fun _ c₆ h₆ _ =>
          .bind (part h₆.sound ?_).any fun _ c₇ h₇ _ => .bind (emitLoop_works h₇.sound ?_)
            fun _ c₈ h₈ _ => .bind (patchJump_works h₈.sound ?_) fun _ c₉ h₉ _ =>
              emit_works h₉.sound _
  · exact h₂.unread.trans (h₁.unread.trans left)
  · exact h₆.unread.trans (h₅.unread.trans (h₄.unread.trans (h₃.unread.trans
      (h₂.unread.trans (h₁.unread.trans left)))))
  · have := h₂.code
    have := h₃.code
    have := h₄.code
    have := h₅.code
    have := h₆.code
    have := h₇.code
    omega
  · have := h₆.code
    have := h₇.code
    have := h₈.code
    omega

theorem forInitializer_works (value : Reliable L n expression expression')
    (sound : c.Sound L depth) (left : c.unread ≤ n) :
    Works L false 16 depth c Any (checker.forInitializer expression c)
      (forInitializer expression' c) := by
  refine .accept sound (by decide) (fun d hd _ _ => .ok (hd.mono (Nat.zero_le _)) trivial) fun _ =>
    .accept sound (by decide) (fun d hd _ hgain => ?_) fun _ =>
      (expressionStatement_works value sound left).any
  exact ((varDeclaration_works value hd.sound (hd.unread.trans left)).repaid hd hgain
    (Token.le_price (by omega))).any.mono (Nat.zero_le _)

/-- The jump out of a loop has been written when the test has. -/
theorem forCondition_works (value : Reliable L n expression expression')
    (sound : c.Sound L depth) (left : c.unread ≤ n) :
    Works L false 20 depth c
      (fun toEnd c' => ∀ operand, toEnd = some operand → operand + 2 ≤ c'.draft.chunk.code.size)
      (checker.forCondition expression c) (forCondition expression' c) := by
  refine .accept sound (by decide)
    (fun d hd _ _ => .ok (hd.mono (Nat.zero_le _)) fun _ heq => by cases heq) fun _ => ?_
  show Works L false (0 + (0 + (15 + (5 + 0)))) _ _ _ _ _
  refine (value sound left).loosen.bind fun _ c₁ h₁ _ => (expect_works h₁.sound _ _).bind
    fun _ c₂ h₂ _ => (emitJump_works h₂.sound _).bind fun toEnd c₃ h₃ hend =>
      (emit_works h₃.sound _).bind fun _ c₄ h₄ _ => .pure h₄.sound _ fun operand heq => ?_
  cases heq
  have := h₄.code
  omega

/-- The place that the body goes back to lies behind it. -/
theorem forIncrement_works (value : Reliable L n expression expression')
    (sound : c.Sound L depth) (left : c.unread ≤ n) {start : Nat}
    (back : start ≤ c.draft.chunk.code.size) :
    Works L false 35 depth c (fun start c' => start ≤ c'.draft.chunk.code.size)
      (checker.forIncrement expression start c) (forIncrement expression' start c) := by
  refine .accept sound (by decide)
    (fun d hd _ _ => .ok (hd.mono (Nat.zero_le _)) (back.trans hd.code)) fun _ => ?_
  show Works L false (15 + (0 + (0 + (5 + (0 + (15 + (0 + 0))))))) _ _ _ _ _
  refine (emitJump_works sound _).bind fun toBody c₁ h₁ hbody => (codeSize_works h₁.sound).bind
    fun increment c₂ h₂ hincrement => .bind (value h₂.sound ?_).loosen fun _ c₃ h₃ _ =>
      (emit_works h₃.sound _).bind fun _ c₄ h₄ _ => (expect_works h₄.sound _ _).bind
        fun _ c₅ h₅ _ => .bind (emitLoop_works h₅.sound ?_) fun _ c₆ h₆ _ =>
          .bind (patchJump_works h₆.sound ?_) fun _ c₇ h₇ _ => .pure h₇.sound _ ?_
  · exact h₂.unread.trans (h₁.unread.trans left)
  · have := h₁.code
    have := h₂.code
    have := h₃.code
    have := h₄.code
    have := h₅.code
    omega
  · have := h₂.code
    have := h₃.code
    have := h₄.code
    have := h₅.code
    have := h₆.code
    omega
  · have := h₃.code
    have := h₄.code
    have := h₅.code
    have := h₆.code
    have := h₇.code
    omega

theorem forStatement_works (value : Reliable L n expression expression')
    (part : Steadfast L n statement statement') (sound : c.Sound L depth) (left : c.unread ≤ n) :
    Works L false 1387 depth c Any (checker.forStatement expression statement c)
      (forStatement expression' statement' c) := by
  rw [show 1387 = 0 + (0 + (16 + (0 + (20 + (35 + (16 + (15 + 1285))))))) by omega]
  refine (openScope_works sound).bind fun _ c₁ h₁ _ => (expect_works h₁.sound _ _).bind
    fun _ c₂ h₂ _ => .bind (forInitializer_works value h₂.sound ?_) fun _ c₃ h₃ _ =>
      (codeSize_works h₃.sound).bind fun start c₄ h₄ hstart =>
        .bind (forCondition_works value h₄.sound ?_) fun toEnd c₅ h₅ hend =>
          .bind (forIncrement_works value h₅.sound ?_ ?_) fun back c₆ h₆ hback =>
            .bind (part h₆.sound ?_).any fun _ c₇ h₇ _ => .bind (emitLoop_works h₇.sound ?_)
              fun _ c₈ h₈ _ => ?_
  · exact h₂.unread.trans (h₁.unread.trans left)
  · exact h₄.unread.trans (h₃.unread.trans (h₂.unread.trans (h₁.unread.trans left)))
  · exact h₅.unread.trans (h₄.unread.trans (h₃.unread.trans
      (h₂.unread.trans (h₁.unread.trans left))))
  · exact hstart ▸ h₅.code
  · exact h₆.unread.trans (h₅.unread.trans (h₄.unread.trans (h₃.unread.trans
      (h₂.unread.trans (h₁.unread.trans left)))))
  · exact hback.trans h₇.code
  · cases toEnd with
    | none => exact (closeScope_works h₈.sound).mono (by omega)
    | some operand =>
        rw [show 1285 = 0 + (5 + 1280) by omega]
        refine .bind (patchJump_works h₈.sound ?_) fun _ c₉ h₉ _ => (emit_works h₉.sound _).bind
          fun _ _ h _ => closeScope_works h.sound
        exact (hend operand rfl).trans (h₆.code.trans (h₇.code.trans h₈.code))

/-! ### Blocks and functions -/

/-- A statement in front of the end of the input is not there: any other one takes a token, and
what follows has as much to spend as before. -/
theorem Steadfast.onward {post : α → Compiler → Prop} {x y : CompileM Unit} {f g : CompileM α}
    (each : Steadfast L n x y) (sound : c.Sound L depth) (left : c.unread ≤ n)
    (more : c.current.kind ≠ .endOfInput)
    (rest : ∀ c', c'.Sound L depth → c'.unread < c.unread →
      Works L false 16 depth c' post (f c') (g c')) :
    Works L false 16 depth c post ((do x; f) c) ((do y; g) c) := by
  refine (each sound left).step (by omega) fun _ c' follows hgains => ?_
  obtain ⟨hless, hworth⟩ := hgains (unread_pos more)
  refine (rest c' follows.sound hless).rebase (by omega) fun _ c'' follows' hpost =>
    ⟨{ follows.trans follows' with worth := ?_ }, hpost⟩
  have := follows'.worth
  omega

/-- Declarations up to a closing brace. -/
theorem declarations_works (each : Steadfast L n declaration declaration')
    (sound : c.Sound L depth) (left : c.unread ≤ n) (enough : c.unread < steps) :
    Works L false 16 depth c Any (Instrument.declarations declaration steps c)
      (declarations declaration' steps c) := by
  induction steps generalizing c with
  | zero => exact absurd enough (Nat.not_lt_zero _)
  | succ steps ih =>
      refine .check (.check (.ite (fun _ => ?_) fun hmore => ?_))
      · exact (Works.pure sound _ trivial).mono (Nat.zero_le _)
      · exact each.onward sound left (fun hend => hmore (by simp [hend])) fun c' sound' hless =>
          ih sound' (by omega) (by omega)

theorem block_works (each : Steadfast L n declaration declaration')
    (sound : c.Sound L depth) (left : c.unread ≤ n) (enough : c.unread < steps) :
    Works L false 16 depth c Any (Instrument.block declaration steps c)
      (Compiler.block declaration' steps c) :=
  (declarations_works each sound left enough).bind fun _ _ h _ => expect_works h.sound _ _

/-- There is a count of parameters, or there are too many. -/
theorem countParameter_works (sound : c.Sound L depth) :
    Works L true 0 depth c Any (countParameter c) (countParameter c) := by
  refine .read (.ite (fun _ => complainAhead_works sound _) fun _ => .modify ?_)
  exact .edit sound ⟨sound.seated.callee, sound.seated.locals, sound.seated.captures⟩ sound.handles
    sound.depth (Nat.le_refl _) (fun _ => rfl) (Nat.le_refl _)

/-- The parameters of a function. Every comma pays for the parameter behind it. -/
theorem parameters_works (sound : c.Sound L (depth + 1)) (enough : c.unread < steps) :
    Works L false 10 (depth + 1) c Any (checker.parameters steps c) (parameters steps c) := by
  induction steps generalizing c with
  | zero => exact absurd enough (Nat.not_lt_zero _)
  | succ steps ih =>
      rw [parameters_succ]
      show Works L false (0 + (0 + (10 + 0))) _ _ _ _ _
      refine (countParameter_works sound).loosen.bind fun _ c₀ h₀ _ =>
        (localName_works h₀.sound _).bind fun global c₁ h₁ named =>
          (defineVariable_works h₁.sound (fun _ => named) _).bind fun _ c₂ h₂ _ =>
            .accept h₂.sound (by decide) (fun c₃ h₃ hless hgain => ?_) fun _ =>
              .pure h₂.sound _ trivial
      have := h₀.unread
      have := h₁.unread
      have := h₂.unread
      exact ((ih h₃.sound (by omega)).repaid h₃ hgain (Token.le_price (by omega))).any

/-- A function that stands inside another one is left. -/
theorem leaveFunction_checked (inside : c.enclosing ≠ []) :
    checker.leaveFunction c = .ok () c.left := by
  have hrequire : require (fun c => c.enclosing ≠ []) c = .ok () c := by
    rw [require, bind_of_ok (get_apply c), if_pos inside]
    rfl
  show Checked.leaveFunction c = _
  rw [Checked.leaveFunction, bind_of_ok hrequire, leaveFunction_apply]

theorem heap_left (c : Compiler) : c.left.heap = c.heap := by
  unfold Compiler.left
  split <;> rfl

/-- The variables that a closure captures. -/
theorem captures_works (sound : c.Sound L depth) {captures : Array Capture}
    (room : captures.size ≤ Draft.maxCaptures) :
    Works L tidy 2560 depth c Any
      ((captures.toList.forM fun capture => do
        emitByte (if capture.isLocal then 1 else 0)
        emitByte capture.index : CompileM Unit) c)
      ((captures.toList.forM fun capture => do
        emitByte (if capture.isLocal then 1 else 0)
        emitByte capture.index : CompileM Unit) c) := by
  refine (forM_works sound _ fun capture _ h => (emitByte_works h _).bind fun _ _ h' _ =>
    (emitByte_works h'.sound _).any).mono ?_
  rw [Draft.maxCaptures] at room
  rw [Array.length_toList]
  omega

/-- The end of a function: its code is counted, and the closure is made in the function around
it. -/
theorem closure_works {d : Compiler} {name : Handle} (sound : c.Sound L depth)
    (follows : (c.entered name).Follows L false cost depth' d) :
    Works L tidy (cost + 2692) depth c Any
      ((do
        let function ← finishFunction
        let captures := (← get).draft.captures
        checker.leaveFunction
        emitWith .closure (← makeConstant (.object function))
        captures.toList.forM fun capture => do
          emitByte (if capture.isLocal then 1 else 0)
          emitByte capture.index : CompileM Unit) d)
      ((do
        let function ← finishFunction
        let captures := (← get).draft.captures
        leaveFunction
        emitWith .closure (← makeConstant (.object function))
        captures.toList.forM fun capture => do
          emitByte (if capture.isLocal then 1 else 0)
          emitByte capture.index : CompileM Unit) d) := by
  have hentered := worth_entered c name
  rw [finishFunction_eq, bind_assoc, bind_assoc]
  refine (emitReturn_works follows.sound).onward follows (by omega) fun _ o ho _ => ?_
  rcases allocateFunction_cases ho.sound with
    ⟨f, heap, hrun, hvalid, hpolicy, hlive, hf, hbytes⟩ | ⟨e, hrun, hover⟩
  · rw [bind_of_ok hrun, bind_of_ok hrun]
    obtain ⟨hinside, hleft⟩ : _ ∧ c.Follows L tidy (cost + 10 + 96) depth
        ({ o with heap } : Compiler).left := left_follows sound ho hvalid hpolicy hlive hbytes
    have hleave := leaveFunction_checked (c := { o with heap }) hinside
    refine .read ?_
    rw [bind_of_ok hleave, bind_of_ok (leaveFunction_apply _)]
    refine (Works.after ((makeConstant_works hleft.sound fun g heq => ?_).bind fun k c₁ h₁ _ =>
      (emitWith_works h₁.sound _ _).bind fun _ c₂ h₂ _ =>
        captures_works h₂.sound ho.sound.seated.captures) hleft).mono (by omega)
    cases heq
    rw [heap_left]
    exact hf
  · rw [bind_of_error hrun, bind_of_error hrun]
    refine .overflow (hover.trans_le (Nat.mul_le_mul_right _ ?_))
    have := ho.worth
    omega

theorem checker_functionBody (block : CompileM Unit) (steps : Nat) :
    checker.functionBody block steps = (do
      enterFunction (← intern (← get).previous.lexeme)
      openScope
      expect .leftParen .parenAfterFunctionName
      if !(← check .rightParen) then checker.parameters steps
      expect .rightParen .parenAfterParameters
      expect .leftBrace .braceBeforeBody
      block
      let function ← finishFunction
      let captures := (← get).draft.captures
      checker.leaveFunction
      emitWith .closure (← makeConstant (.object function))
      captures.toList.forM fun capture => do
        emitByte (if capture.isLocal then 1 else 0)
        emitByte capture.index) := rfl

/-- The body of a function, which is left for the function around it. -/
theorem functionBody_works
    (body : ∀ {c}, c.Sound L 1 → c.unread ≤ n → Works L false 16 1 c Any (block c) (block' c))
    (sound : c.Sound L depth) (left : c.unread ≤ n) (enough : c.unread < steps) :
    Works L tidy (2814 + c.previous.lexeme.utf8ByteSize) depth c Any
      (checker.functionBody block steps c) (functionBody block' steps c) := by
  have hintern : Works L tidy (96 + c.previous.lexeme.utf8ByteSize) depth c
      (fun h c' => c'.heap.Live h) (intern c.previous.lexeme c) (intern c.previous.lexeme c) :=
    intern_works sound _
  rw [checker_functionBody]
  refine .read (hintern.step (by omega) fun name c₀ h₀ live => ?_)
  have hworth := h₀.worth
  have hunread : (c₀.entered name).unread ≤ c.unread := h₀.unread
  have hentered := worth_entered c₀ name
  rw [bind_of_ok (enterFunction_apply c₀ name), bind_of_ok (enterFunction_apply c₀ name)]
  have hinside := entered_sound h₀.sound live
  -- behind the parameters
  have hrest : ∀ {d cost}, (c₀.entered name).Follows L false cost 1 d →
      cost ≤ 10 → Works L tidy (2814 + c.previous.lexeme.utf8ByteSize) depth c Any
        ((do
          expect .rightParen .parenAfterParameters
          expect .leftBrace .braceBeforeBody
          block
          let function ← finishFunction
          let captures := (← get).draft.captures
          checker.leaveFunction
          emitWith .closure (← makeConstant (.object function))
          captures.toList.forM fun capture => do
            emitByte (if capture.isLocal then 1 else 0)
            emitByte capture.index : CompileM Unit) d)
        ((do
          expect .rightParen .parenAfterParameters
          expect .leftBrace .braceBeforeBody
          block'
          let function ← finishFunction
          let captures := (← get).draft.captures
          leaveFunction
          emitWith .closure (← makeConstant (.object function))
          captures.toList.forM fun capture => do
            emitByte (if capture.isLocal then 1 else 0)
            emitByte capture.index : CompileM Unit) d) := fun {d k} hd hk =>
    (expect_works hd.sound _ _).onward hd (by omega) fun _ d₁ h₁ _ =>
      (expect_works h₁.sound _ _).onward h₁ (by omega) fun _ d₂ h₂ _ =>
        (body h₂.sound (h₂.unread.trans (hunread.trans left))).onward h₂ (by omega) fun _ d₃ h₃ _ =>
          (closure_works h₀.sound h₃).rebase (by omega) fun _ _ h _ =>
            ⟨(h₀.trans h).mono (by omega), trivial⟩
  refine (openScope_works hinside).onward (.refl hinside) (by omega) fun _ d₁ h₁ _ =>
    (expect_works h₁.sound _ _).onward h₁ (by omega) fun _ d₂ h₂ _ => .check (.ite (fun _ => ?_)
      fun _ => hrest h₂ (by omega))
  have := h₂.unread.trans hunread
  exact (parameters_works h₂.sound (by omega)).onward h₂ (by omega) fun _ d₃ h₃ _ =>
    hrest h₃ (by omega)

/-- The closure of a function that has been declared is the value of its variable. -/
theorem funDeclaration_works
    (body : ∀ {c}, c.Sound L 1 → c.unread ≤ n → Works L false 16 1 c Any (block c) (block' c))
    (sound : c.Sound L depth) (left : c.unread ≤ n) (enough : c.unread < steps) :
    Works L false (2936 + 2 * c.previous.lexeme.utf8ByteSize) depth c Any
      (checker.funDeclaration block steps c) (funDeclaration block' steps c) := by
  refine (variableName_works sound _).step (by omega) fun global c₁ h₁ ⟨named, hnamed⟩ => ?_
  have hmark : Works L true 0 depth c₁ _ (markInitialized c₁) (markInitialized c₁) :=
    (markInitialized_works h₁.sound named).stays fun _ _ => markInitialized_previous
  have hunread := h₁.unread
  have hworth := h₁.worth
  refine hmark.step (by omega) fun _ c₂ h₂ ⟨_, hsame⟩ => ?_
  have hbody : Works L true (2814 + c₁.previous.lexeme.utf8ByteSize) depth c₂ Any
      (checker.functionBody block steps c₂) (functionBody block' steps c₂) := by
    have := h₂.unread
    rw [← hsame]
    exact functionBody_works body h₂.sound (by omega) (by omega)
  have hworth₂ := h₂.worth
  refine (hbody.bind fun _ c₃ h₃ _ => defineVariable_works h₃.sound (fun hpos => ?_) global).rebase
    (by omega) fun _ c₄ h₄ _ => ⟨?_, trivial⟩
  · rw [h₃.locals rfl, h₂.locals rfl]
    exact named hpos
  · have := h₄.worth
    exact { (h₁.trans h₂.loosen).trans h₄.loosen with worth := by omega }

/-! ### Any statement -/

theorem statementWith_works (value : Reliable L n expression expression')
    (body : ∀ {c depth}, c.Sound L depth → c.unread < n →
      Works L false 16 depth c Any (block c) (block' c))
    (part : ∀ m < n, Steadfast L m statement statement') :
    Steadfast L n (checker.statementWith expression block statement)
      (statementWith expression' block' statement') := by
  intro c depth sound left
  have hvalue : ∀ d : Compiler, d.unread < c.unread → Reliable L d.unread expression expression' :=
    fun d hless _ _ sound' left' => value sound' (by omega)
  have hpart : ∀ d : Compiler, d.unread < c.unread → Steadfast L d.unread statement statement' :=
    fun d hless => part d.unread (by omega)
  refine .accept sound (by decide) (fun d hd hless hgain => ?_) fun _ =>
    .accept sound (by decide) (fun d hd hless hgain => ?_) fun _ =>
    .accept sound (by decide) (fun d hd hless hgain => ?_) fun _ =>
    .accept sound (by decide) (fun d hd hless hgain => ?_) fun _ =>
    .accept sound (by decide) (fun d hd hless hgain => ?_) fun _ =>
    .accept sound (by decide) (fun d hd hless hgain => ?_) fun _ =>
      expressionStatement_works value sound left
  · exact (printStatement_works (hvalue d hless) hd.sound (Nat.le_refl _)).settled hd hless hgain
      (Token.le_price (by omega))
  · exact (ifStatement_works (hvalue d hless) (hpart d hless) hd.sound (Nat.le_refl _)).settled hd
      hless hgain (Token.le_price (by omega))
  · exact (returnStatement_works (hvalue d hless) hd.sound (Nat.le_refl _)).settled hd hless hgain
      (Token.le_price (by omega))
  · exact (whileStatement_works (hvalue d hless) (hpart d hless) hd.sound (Nat.le_refl _)).settled
      hd hless hgain (Token.le_price (by omega))
  · exact (forStatement_works (hvalue d hless) (hpart d hless) hd.sound (Nat.le_refl _)).settled hd
      hless hgain (Token.le_price (by omega))
  · exact ((openScope_works hd.sound).bind fun _ c₁ h₁ _ =>
      (body h₁.sound (by have := h₁.unread; omega)).bind fun _ c₂ h₂ _ =>
        closeScope_works h₂.sound).settled hd hless hgain (Token.le_price (by omega))

/-- At the end of a declaration a panic ends. -/
theorem recover_works (follows : c.Follows L false 16 depth c') (gains : c.Gains 0 c') :
    Works L false 16 depth c (fun _ c'' => c.Gains 0 c'')
      ((do if (← get).panicking then synchronize : CompileM Unit) c')
      ((do if (← get).panicking then synchronize : CompileM Unit) c') := by
  have hend : ∀ {x : CompileM Unit}, Works L false 0 depth c' Any (x c') (x c') →
      Works L false 16 depth c (fun _ c'' => c.Gains 0 c'') (x c') (x c') := fun works => by
    have hworth := follows.worth
    refine works.rebase (by omega) fun _ c'' hrest _ =>
      ⟨(follows.trans hrest).mono (Nat.le_refl _), fun hpos => ?_⟩
    have := gains hpos
    have := hrest.unread
    have := hrest.worth
    omega
  exact .read (.ite (fun _ => hend (synchronize_works follows.sound)) fun _ =>
    hend (.pure follows.sound () trivial))

/-- The check of a declaration passes, as it has taken a token. -/
theorem around_works {x y : CompileM Unit}
    (works : Works L false 16 depth c (fun _ c' => c.Gains 0 c') (x c) (y c)) :
    Works L false 16 depth c (fun _ c' => c.Gains 0 c') (checker.around x c) (y c) := by
  show Works _ _ _ _ _ _ (Checked.around x c) _
  rw [Checked.around, bind_of_ok (get_apply c)]
  refine works.confirm fun _ c' _ hgains => ?_
  by_cases hkind : c.current.kind = .endOfInput
  · exact .inl hkind
  · exact .inr (hgains (unread_pos hkind)).1

/-- A declaration makes progress, also if it has to recover. -/
theorem declarationWith_works (value : Reliable L n expression expression')
    (body : ∀ {c depth}, c.Sound L depth → c.unread < n →
      Works L false 16 depth c Any (block c) (block' c))
    (part : Steadfast L n statement statement') (enough : n ≤ steps) :
    Steadfast L n (checker.declarationWith expression block statement steps)
      (declarationWith expression' block' statement' steps) := by
  intro c depth sound left
  refine around_works (.accept sound (by decide) (fun d hd hless hgain => ?_) fun _ =>
    .accept sound (by decide) (fun d hd hless hgain => ?_) fun _ =>
      (part sound left).step (Nat.le_refl _) fun _ d' hd' hgains => recover_works hd' hgains)
  · refine ((funDeclaration_works (fun sound' left' => body sound' ?_) hd.sound (Nat.le_refl _)
      ?_).settled hd hless hgain (Token.le_price ?_)).step (Nat.le_refl _) fun _ d' hd' hgains =>
        recover_works hd' hgains
    all_goals omega
  · refine ((varDeclaration_works value hd.sound ?_).settled hd hless hgain
      (Token.le_price ?_)).step (Nat.le_refl _) fun _ d' hd' hgains => recover_works hd' hgains
    all_goals omega

end

/-- Any statement and any declaration, if the steps suffice for all tokens. -/
theorem statementAt_declarationAt_works (steps : Nat) : ∀ n < steps,
    Steadfast L n (checker.statementAt steps) (statementAt steps) ∧
      Steadfast L n (checker.declarationAt steps) (declarationAt steps) := by
  induction steps with
  | zero => exact fun n hn => absurd hn (Nat.not_lt_zero n)
  | succ steps ih =>
      intro n hn
      have hvalue := expression_works (L := L) hn
      have hbody : ∀ {c depth}, c.Sound L depth → c.unread < n → Works L false 16 depth c Any
          (Instrument.block (checker.declarationAt steps) (steps + 1) c)
          (Compiler.block (declarationAt steps) (steps + 1) c) := fun {c depth} sound hless => by
        have hdeclaration := (ih c.unread (by omega)).2
        exact block_works hdeclaration sound (Nat.le_refl _) (by omega)
      have hstatement := statementWith_works hvalue hbody fun m hm => (ih m (by omega)).1
      constructor
      · rw [Instrument.statementAt.eq_2, statementAt]
        exact hstatement
      · rw [Instrument.declarationAt.eq_2, declarationAt]
        exact declarationWith_works hvalue hbody hstatement (by omega)

end Compiler

end Lox
