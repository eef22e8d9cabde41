import Lox.Proofs.Compile.Reports
import Lox.Proofs.Compile.Totality.Upkeep
import Lox.Proofs.Heap.Charging

/-!
# Small steps keep everything up

Every step that the forms of the grammar are made of has its price: an instruction five bytes, a
name the bytes of its text and of its string, a scope an instruction for each of its locals. A
token that is taken pays more than any of them.

## Main results

* `advance_works`, `Works.accept` — a token that is taken pays for what follows.
* `closeScope_works`, `resolve_works` — scopes and names, with their checks.
* `left_follows` — a function, seen from the one around it.
-/

namespace Lox

namespace Compiler

variable {L : Limits} {tidy : Bool} {cost more depth depth' : Nat} {c c' c'' o : Compiler}
  {α β : Type}

/-! ### Reports and tokens -/

/-- A report sets off the alarm, at most. -/
theorem report_rest (c : Compiler) (token : Token) (issue : Issue) :
    c.report token issue = { c with alarm := (c.report token issue).alarm } := by
  unfold report
  split <;> rfl

theorem report_previous (c : Compiler) (token : Token) (issue : Issue) :
    (c.report token issue).previous = c.previous := by rw [report_rest]

/-- A report leaves everything as it is. -/
theorem report_follows (sound : c.Sound L depth) (token : Token) (issue : Issue) :
    c.Follows L tidy 0 depth (c.report token issue) := by
  have hrest := report_rest c token issue
  refine .reads sound ?_ ?_ ?_ ?_ ?_ <;> rw [hrest]
  · exact fun _ => id
  · exact Nat.le_refl _
  · exact Nat.le_refl _

theorem complain_works (sound : c.Sound L depth) (issue : Issue) :
    Works L tidy 0 depth c Any (complain issue c) (complain issue c) :=
  .answer (modify_apply _ _) (report_follows sound _ _) trivial

theorem complainAhead_works (sound : c.Sound L depth) (issue : Issue) :
    Works L tidy 0 depth c Any (complainAhead issue c) (complainAhead issue c) :=
  .answer (modify_apply _ _) (report_follows sound _ _) trivial

/-- Pulling a token changes the tokens and the alarm, at most. -/
theorem pull_rest (c : Compiler) (pending : List Token) :
    c.pull pending = { c with
      tokens := (c.pull pending).tokens, current := (c.pull pending).current
      alarm := (c.pull pending).alarm } := by
  induction pending generalizing c with
  | nil => rfl
  | cons t pending ih =>
      unfold pull
      split
      · have hpull := ih (c.report t (.malformed t.lexeme))
        have hreport := report_rest c t (.malformed t.lexeme)
        generalize c.report t (.malformed t.lexeme) = d at hpull hreport ⊢
        rw [hpull, hreport]
      · rfl

/-- No more tokens are to be taken than were pending. -/
theorem unread_pull (c : Compiler) (pending : List Token)
    (final : c.tokens.final.kind = .endOfInput) : (c.pull pending).unread ≤ pending.length := by
  induction pending generalizing c with
  | nil => simp [pull, unread, final]
  | cons t pending ih =>
      unfold pull
      split
      · have hreport := report_rest c t (.malformed t.lexeme)
        exact (ih _ (by rw [hreport]; exact final)).trans (Nat.le_succ _)
      · unfold unread
        split
        · exact Nat.zero_le _
        · exact Nat.le_refl _

/-- The tokens that are still to be taken were pending, so what they pay was to be paid. -/
theorem due_pull (c : Compiler) (pending : List Token)
    (final : c.tokens.final.kind = .endOfInput) :
    (c.pull pending).due ≤ (pending.map Token.price).sum := by
  induction pending generalizing c with
  | nil => simp [pull, due, final]
  | cons t pending ih =>
      unfold pull
      split
      · have hreport := report_rest c t (.malformed t.lexeme)
        exact (ih _ (by rw [hreport]; exact final)).trans (Nat.le_add_left _ _)
      · unfold due
        split
        · exact Nat.zero_le _
        · exact Nat.le_refl _

/-- Where no token is to be taken, the input has ended. -/
theorem current_of_unread (none : c.unread = 0) : c.current.kind = .endOfInput := by
  unfold unread at none
  split at none
  · exact (‹_ ∧ _›).1
  · omega

/-- A token that is not the end of the input is to be taken. -/
theorem unread_pos (kind : c.current.kind ≠ .endOfInput) : 0 < c.unread :=
  Nat.pos_of_ne_zero fun none => kind (current_of_unread none)

/-- If a token was to be taken, one has been taken, and of what it pays some is not yet spent. -/
def Gains (spare : Nat) (c c' : Compiler) : Prop :=
  0 < c.unread → c'.unread < c.unread ∧ c'.worth + spare ≤ c.worth

/-- All pending tokens are to be taken, and the one ahead unless nothing is. -/
theorem unread_eq (c : Compiler) :
    c.unread = 0 ∧ c.due = 0 ∧ c.tokens.pending = [] ∨
      c.unread = c.tokens.pending.length + 1 ∧
        c.due = c.current.price + (c.tokens.pending.map Token.price).sum := by
  unfold unread due
  split
  · exact .inl ⟨rfl, rfl, (‹_ ∧ _›).2⟩
  · exact .inr ⟨rfl, rfl⟩

/-- Taking a token. -/
theorem advance_works (sound : c.Sound L depth) :
    Works L tidy 0 depth c
      (fun _ c' => c'.previous = c.current ∧ c.Gains c'.previous.price c')
      (advance c) (advance c) := by
  have hrest := pull_rest { c with previous := c.current } c.tokens.pending
  have hunread := unread_pull { c with previous := c.current } c.tokens.pending sound.final
  have hdue := due_pull { c with previous := c.current } c.tokens.pending sound.final
  obtain ⟨taken, hpending, hfinal, hcurrent, -, -⟩ :=
    pull_takes { c with previous := c.current } c.tokens.pending
  have hprevious := previous_pull { c with previous := c.current } c.tokens.pending
  refine .answer (modify_apply _ _) ?_ ?_ <;>
    generalize ({ c with previous := c.current } : Compiler).pull c.tokens.pending = d at *
  · refine .reads sound (by rw [hrest]) (fun t ht => ?_) hfinal ?_ ?_
    · simp only [window, List.mem_cons] at ht ⊢
      rcases ht with rfl | rfl | rfl | ht
      · exact .inl hfinal
      · exact .inr (.inr (.inl hprevious))
      · refine hcurrent.symm.imp_right fun hmem => .inr (.inr ?_)
        exact hpending ▸ List.mem_append_left _ hmem
      · exact .inr (.inr (.inr (hpending ▸ List.mem_append_right _ ht)))
    · rcases c.unread_eq with ⟨-, -, hnil⟩ | ⟨hall, -⟩
      · rw [hnil] at hunread
        exact hunread.trans (Nat.zero_le _)
      · omega
    · rcases c.unread_eq with ⟨-, -, hnil⟩ | ⟨-, hall⟩
      · rw [hnil] at hdue
        exact hdue.trans (Nat.zero_le _)
      · omega
  · refine ⟨hprevious, fun hpos => ?_⟩
    have hload : d.load = c.load := by rw [hrest]; rfl
    have hprice : d.previous.price = c.current.price := by rw [hprevious]
    unfold worth
    rcases c.unread_eq with ⟨hnone, -⟩ | ⟨hall, hpaid⟩ <;> omega

/-- A token is taken, and may pay for what follows. -/
theorem Works.advance {x y : CompileM α} {post : α → Compiler → Prop} (sound : c.Sound L depth)
    (rest : ∀ c', c.Follows L tidy 0 depth c' → c'.previous = c.current →
      c.Gains c'.previous.price c' →
      Works L tidy cost depth' c post (x c') (y c')) :
    Works L tidy cost depth' c post ((do Compiler.advance; x) c) ((do Compiler.advance; y) c) :=
  (advance_works sound).step (by omega) fun _ c' follows hgains =>
    rest c' follows hgains.1 hgains.2

/-- A choice by the token ahead. -/
theorem Works.check {kind : TokenKind} {x y : Bool → CompileM α} {post : α → Compiler → Prop}
    (works : Works L tidy cost depth o post (x (decide (c.current.kind = kind)) c)
      (y (decide (c.current.kind = kind)) c)) :
    Works L tidy cost depth o post ((Compiler.check kind >>= x) c)
      ((Compiler.check kind >>= y) c) := by
  rw [bind_of_ok (check_apply kind c), bind_of_ok (check_apply kind c)]
  exact works

/-- A choice by the token ahead, which is consumed in front of the first form and pays for it. -/
theorem Works.accept {kind : TokenKind} {x y x' y' : CompileM α} {post : α → Compiler → Prop}
    (sound : c.Sound L depth) (proper : kind ≠ .endOfInput)
    (yes : ∀ c', c.Follows L tidy 0 depth c' → c'.unread < c.unread →
      c'.worth + c'.previous.price ≤ c.worth → Works L tidy cost depth' c post (x c') (x' c'))
    (no : c.current.kind ≠ kind → Works L tidy cost depth' c post (y c) (y' c)) :
    Works L tidy cost depth' c post ((do if ← Compiler.accept kind then x else y) c)
      ((do if ← Compiler.accept kind then x' else y') c) := by
  by_cases hkind : c.current.kind = kind
  · have hrun : ∀ f : Bool → CompileM α, (Compiler.accept kind >>= f) c =
        (do Compiler.advance; f true) c := fun f => by
      unfold Compiler.accept
      rw [bind_assoc, bind_of_ok (check_apply kind c), if_pos (by simpa using hkind), bind_assoc]
      rfl
    rw [hrun, hrun]
    exact .advance sound fun c' follows _ hgains =>
      have hless := hgains (unread_pos (hkind ▸ proper))
      yes c' follows hless.1 hless.2
  · rw [bind_of_ok (accept_of_ne hkind), bind_of_ok (accept_of_ne hkind)]
    exact no hkind

theorem expect_works (sound : c.Sound L depth) (kind : TokenKind) (what : Expectation) :
    Works L tidy 0 depth c Any (expect kind what c) (expect kind what c) :=
  .check (.ite (fun _ => (advance_works sound).any) fun _ => complainAhead_works sound _)

/-- A token that is expected pays for what follows, unless it is not there. -/
theorem expect_pays (sound : c.Sound L depth) {kind : TokenKind} (proper : kind ≠ .endOfInput)
    (what : Expectation) :
    Works L tidy 0 depth c
      (fun _ c' => c'.previous = c.previous ∨ c'.worth + c'.previous.price ≤ c.worth)
      (expect kind what c) (expect kind what c) := by
  refine .check (.ite (fun hkind => ?_) fun _ => ?_)
  · have hpos := unread_pos ((of_decide_eq_true hkind).symm ▸ proper)
    exact (advance_works sound).imp fun _ c' _ hgains => .inr (hgains.2 hpos).2
  · exact .answer (modify_apply _ _) (report_follows sound _ _) (.inl (report_previous _ _ _))

/-- Every token that is skipped is taken. -/
theorem skipStatement_works {steps : Nat} (sound : c.Sound L depth) (enough : c.unread < steps) :
    Works L tidy 0 depth c Any (skipStatement steps c) (skipStatement steps c) := by
  induction steps generalizing c with
  | zero => exact absurd enough (Nat.not_lt_zero _)
  | succ steps ih =>
      refine .read (.ite (fun _ => .pure sound _ trivial) fun hmore => ?_)
      have hkind : c.current.kind ≠ .endOfInput := fun hend => hmore (by simp [hend])
      refine (advance_works sound).bind fun _ c' follows hgains => ih follows.sound ?_
      have := (hgains.2 (unread_pos hkind)).1
      omega

/-- A panic ends after finitely many tokens. -/
theorem synchronize_works (sound : c.Sound L depth) :
    Works L tidy 0 depth c Any (synchronize c) (synchronize c) := by
  have hclear : c.Follows L tidy 0 depth { c with diagnostics := c.reported, alarm := none } :=
    .reads sound rfl (fun _ => id) rfl (Nat.le_refl _) (Nat.le_refl _)
  show Works L tidy (0 + 0) depth c Any (synchronize c) (synchronize c)
  refine .bind (.modify hclear) fun _ c' follows _ => .read (skipStatement_works follows.sound ?_)
  rcases c'.unread_eq with ⟨hnone, -⟩ | ⟨hall, -⟩ <;> omega

/-! ### Code -/

theorem codeSize_works (sound : c.Sound L depth) :
    Works L tidy 0 depth c (fun n c' => n = c'.draft.chunk.code.size) (codeSize c) (codeSize c) :=
  .pure sound _ rfl

theorem emitByte_works (sound : c.Sound L depth) (byte : UInt8) :
    Works L tidy 5 depth c
      (fun _ c' => c'.draft.chunk.code.size = c.draft.chunk.code.size + 1)
      (emitByte byte c) (emitByte byte c) := by
  refine .answer (modify_apply _ _) ?_ (by simp [Chunk.write])
  refine .edit sound ⟨sound.seated.callee, sound.seated.locals, sound.seated.captures⟩
    sound.handles sound.depth ?_ (fun _ => rfl) ?_
  · simp [Chunk.write]
  · simp only [Chunk.size, Chunk.write, Array.size_push]
    omega

theorem emit_works (sound : c.Sound L depth) (op : OpCode) :
    Works L tidy 5 depth c Any (emit op c) (emit op c) :=
  (emitByte_works sound _).any

theorem emitWith_works (sound : c.Sound L depth) (op : OpCode) (operand : UInt8) :
    Works L tidy 10 depth c Any (emitWith op operand c) (emitWith op operand c) :=
  (emit_works sound op).bind fun _ _ follows _ => (emitByte_works follows.sound operand).any

theorem emitReturn_works (sound : c.Sound L depth) :
    Works L tidy 10 depth c Any (emitReturn c) (emitReturn c) :=
  (emit_works sound _).bind fun _ _ follows _ => emit_works follows.sound _

/-- Doing something for each entry of a list. -/
theorem forM_works {γ : Type} {act : γ → CompileM Unit} (sound : c.Sound L depth) (l : List γ)
    (each : ∀ a c, c.Sound L depth → Works L tidy cost depth c Any (act a c) (act a c)) :
    Works L tidy (cost * l.length) depth c Any (l.forM act c) (l.forM act c) := by
  induction l generalizing c with
  | nil => exact .pure sound _ trivial
  | cons a l ih =>
      rw [List.length_cons, Nat.mul_succ, Nat.add_comm]
      exact (each a c sound).bind fun _ _ follows _ => ih follows.sound

theorem makeConstant_works (sound : c.Sound L depth) {value : Value}
    (live : ∀ h, value = .object h → c.heap.Live h) :
    Works L tidy 16 depth c Any (makeConstant value c) (makeConstant value c) := by
  cases hadd : c.draft.chunk.addConstant? value with
  | none =>
      have hrun : makeConstant value c = .ok 0 (c.report c.previous .tooManyConstants) := by
        simp only [makeConstant, hadd]
      exact .answer hrun ((report_follows sound _ _).mono (Nat.zero_le _)) trivial
  | some found =>
      have hrun : makeConstant value c =
          .ok found.1 { c with draft := { c.draft with chunk := found.2 } } := by
        simp only [makeConstant, hadd]
      unfold Chunk.addConstant? at hadd
      split at hadd <;> cases hadd
      refine .answer hrun (.edit sound ⟨sound.seated.callee, sound.seated.locals,
        sound.seated.captures⟩ (fun h hh => ?_) sound.depth (Nat.le_refl _)
          (fun _ => rfl) ?_) trivial
      · rcases Draft.mem_handles.mp hh with hname | hmem
        · exact sound.handles h (Draft.mem_handles.mpr (.inl hname))
        · rw [Array.toList_push, List.mem_append, List.mem_singleton] at hmem
          rcases hmem with hmem | heq
          · exact sound.handles h (Draft.mem_handles.mpr (.inr hmem))
          · exact live h heq.symm
      · simp only [Chunk.size, Array.size_push]
        omega

theorem emitConstant_works (sound : c.Sound L depth) {value : Value}
    (live : ∀ h, value = .object h → c.heap.Live h) :
    Works L tidy 26 depth c Any (emitConstant value c) (emitConstant value c) :=
  (makeConstant_works sound live).bind fun _ _ follows _ => emitWith_works follows.sound _ _

/-! ### Jumps -/

/-- The operand of a jump that has just been written stands at the end of the code. -/
theorem emitJump_works (sound : c.Sound L depth) (op : OpCode) :
    Works L tidy 15 depth c (fun operand c' => operand + 2 = c'.draft.chunk.code.size)
      (Checked.emitJump op c) (emitJump op c) := by
  refine .ensure ?_ fun _ _ _ heq => heq
  refine (emitByte_works sound _).bind fun _ c₁ h₁ hsize₁ =>
    (emitByte_works h₁.sound _).bind fun _ c₂ h₂ hsize₂ =>
      (emitByte_works h₂.sound _).bind fun _ c₃ h₃ hsize₃ =>
        (codeSize_works h₃.sound).bind fun n c₄ h₄ hsize₄ => .pure h₄.sound _ ?_
  have := h₄.code
  omega

/-- A jump is patched whose operand has been written. -/
theorem patchJump_works (sound : c.Sound L depth) {operand : Nat}
    (written : operand + 2 ≤ c.draft.chunk.code.size) :
    Works L tidy 0 depth c Any (Checked.patchJump operand c) (patchJump operand c) := by
  refine .require (.ite (fun _ => ?_) fun _ => complain_works sound _) written
  refine .answer (modify_apply _ _) ?_ trivial
  exact .edit sound ⟨sound.seated.callee, sound.seated.locals, sound.seated.captures⟩
    sound.handles sound.depth (by simp [Chunk.patch]) (fun _ => rfl)
    (by simp [Chunk.patch, Chunk.size])

/-- A loop leads back. -/
theorem emitLoop_works (sound : c.Sound L depth) {target : Nat}
    (back : target ≤ c.draft.chunk.code.size) :
    Works L tidy 15 depth c Any (Checked.emitLoop target c) (emitLoop target c) := by
  refine .require ?_ back
  show Works L tidy (5 + (0 + 10)) depth c Any (emitLoop target c) (emitLoop target c)
  refine (emit_works sound _).bind fun _ c₁ h₁ _ => (codeSize_works h₁.sound).bind
    fun n c₂ h₂ _ => .ite (fun _ => ?_) fun _ => ?_
  · exact (emitByte_works h₂.sound _).bind fun _ _ h _ => (emitByte_works h.sound _).any
  · show Works L tidy (0 + 10) depth c₂ Any _ _
    exact (complain_works h₂.sound _).bind fun _ _ h _ =>
      (emitByte_works h.sound _).bind fun _ _ h' _ => (emitByte_works h'.sound _).any

/-! ### Objects -/

/-- Interning a text. -/
theorem intern_works (sound : c.Sound L depth) (text : String) :
    Works L tidy (96 + text.utf8ByteSize) depth c (fun h c' => c'.heap.Live h) (intern text c)
      (intern text c) := by
  have hcharges := Heap.intern_charges text c.rooted
  have hsize : (Object.string text).size = 96 + text.utf8ByteSize := rfl
  rcases Heap.intern_spec sound.valid sound.live text with
    ⟨h, heap, hrun, hinterned⟩ | ⟨heap, hrun, -⟩
  · have hrun' : intern text c = .ok h { c with heap } := by
      rw [rooted] at hrun
      simp only [intern, hrun]
    obtain ⟨hbytes, hpolicy⟩ := hcharges.ok _ _ _ hrun
    exact .answer hrun' (.charge sound (hinterned.valid sound.valid) hpolicy
      (fun g hg => hinterned.keeps.live (.root hg) (sound.live g hg)) (by omega))
      ⟨_, hinterned.object?_self⟩
  · have hrun' : intern text c = .error .overflow { c with heap } := by
      rw [rooted] at hrun
      simp only [intern, hrun]
    rw [hrun']
    refine .overflow ((hcharges.overflow _ _ hrun).trans_le ?_)
    rw [sound.growth]
    refine Nat.mul_le_mul_right _ ?_
    unfold worth load
    omega

/-- Adding a constant that holds a name. -/
theorem nameConstant_works (sound : c.Sound L depth) (name : String) :
    Works L tidy (112 + name.utf8ByteSize) depth c Any (nameConstant name c)
      (nameConstant name c) := by
  rw [show 112 + name.utf8ByteSize = 96 + name.utf8ByteSize + 16 by omega]
  refine (intern_works sound name).bind fun h _ follows live =>
    makeConstant_works follows.sound fun g heq => ?_
  cases heq
  exact live

/-- Adding a constant takes no token. -/
theorem nameConstant_previous {name : String} {index : UInt8}
    (run : nameConstant name c = .ok index c') : c'.previous = c.previous := by
  obtain ⟨h, mid, hintern, hmake⟩ := bind_eq_ok_iff.mp run
  unfold intern at hintern
  split at hintern <;> cases hintern
  unfold makeConstant at hmake
  split at hmake <;> cases hmake
  · rfl
  · exact report_previous _ _ _

/-! ### Scopes -/

theorem openScope_works (sound : c.Sound L depth) :
    Works L tidy 0 (depth + 1) c Any (openScope c) (openScope c) :=
  .answer (modify_apply _ _) (.edit sound ⟨sound.seated.callee, sound.seated.locals,
    sound.seated.captures⟩ sound.handles (congrArg (· + 1) sound.depth) (Nat.le_refl _)
    (fun _ => rfl) (Nat.le_refl _)) trivial

/-- A scope that is open is closed, and the function keeps its slot. -/
theorem closeScope_works (sound : c.Sound L (depth + 1)) :
    Works L false 1280 depth c Any (Checked.closeScope c) (closeScope c) := by
  have hpos : 0 < c.draft.depth := by
    rw [sound.depth]
    omega
  obtain ⟨l, hmem, hstays⟩ := (sound.seated.dropWhile hpos).1
  refine .require ?_ ⟨hpos, List.any_eq_true.mpr ⟨l, hmem, by simp [hstays]⟩⟩
  have hdepth : c.draft.depth - 1 = depth := by
    rw [sound.depth]
    omega
  have hlower : c.Follows L false 0 depth
      { c with draft := { c.draft with depth := c.draft.depth - 1 } } :=
    .edit sound ⟨sound.seated.callee, sound.seated.locals, sound.seated.captures⟩ sound.handles
      hdepth (Nat.le_refl _) (fun _ => rfl) (Nat.le_refl _)
  rw [show 1280 = 0 + (1280 + 0) by omega]
  refine .bind (.modify hlower) fun _ c₁ h₁ _ => .read (.bind
    ((forM_works h₁.sound _ fun l _ h => emit_works h (discard l)).mono ?_)
      fun _ c₂ h₂ _ => .answer (modify_apply _ _) (.edit h₂.sound ⟨?_, ?_, ?_⟩ h₂.sound.handles
        h₂.sound.depth (Nat.le_refl _) (fun h => by cases h) (Nat.le_refl _)) trivial)
  · have hall := (List.takeWhile_sublist (Draft.isWithin (c₁.draft.depth + 1))
      (l := c₁.draft.locals)).length_le
    have := h₁.sound.seated.locals
    simp only [Draft.maxLocals] at this
    omega
  · exact (h₂.sound.seated.dropWhile (Nat.succ_pos _)).2
  · exact (List.dropWhile_sublist _).length_le.trans h₂.sound.seated.locals
  · exact h₂.sound.seated.captures

/-- A choice by the scope. -/
theorem Works.scope {x y x' y' : CompileM α} {post : α → Compiler → Prop}
    (inner : 0 < c.draft.depth → Works L tidy cost depth o post (x c) (x' c))
    (outer : c.draft.depth = 0 → Works L tidy cost depth o post (y c) (y' c)) :
    Works L tidy cost depth o post ((do if ← inScope then x else y) c)
      ((do if ← inScope then x' else y') c) := by
  rw [bind_of_ok (inScope_apply c), bind_of_ok (inScope_apply c)]
  by_cases hscope : 0 < c.draft.depth
  · simpa [hscope] using inner hscope
  · simpa [hscope] using outer (by omega)

/-- Adding a local. The newest one is then not the function itself, even if there was no room. -/
theorem addLocal_works (sound : c.Sound L depth) (name : String) :
    Works L false 0 depth c (fun _ c' => 2 ≤ c'.draft.locals.length) (addLocal name c)
      (addLocal name c) := by
  have hseated := sound.seated
  refine .read (.ite (fun hfull => ?_) fun hroom => ?_)
  · refine .answer (modify_apply _ _) (report_follows sound _ _) ?_
    rw [report_rest, hfull]
    decide
  · have hpos : c.draft.locals ≠ [] := fun hnil => by simpa [hnil] using hseated.callee
    have := List.length_pos_of_ne_nil hpos
    have := hseated.locals
    refine .answer (modify_apply _ _) (.edit sound (hseated.cons _ (by omega)) sound.handles
      sound.depth (Nat.le_refl _) (fun h => by cases h) (Nat.le_refl _)) ?_
    simp only [List.length_cons]
    omega

/-- Declaring the variable of the token consumed last. -/
theorem declareVariable_works (sound : c.Sound L depth) :
    Works L false 0 depth c (fun _ c' => 0 < depth → 2 ≤ c'.draft.locals.length)
      (declareVariable c) (declareVariable c) := by
  refine .scope (fun _ => .read (.ite (fun _ => ?_) fun _ => ?_)) fun houter => ?_
  · exact (complain_works sound _).bind fun _ _ h _ =>
      (addLocal_works h.sound _).imp fun _ _ _ hmore _ => hmore
  · exact (addLocal_works sound _).imp fun _ _ _ hmore _ => hmore
  · refine .pure sound _ fun hinner => ?_
    rw [sound.depth] at houter
    omega

/-- Declaring a variable takes no token. -/
theorem declareVariable_previous {u : Unit} (run : declareVariable c = .ok u c') :
    c'.previous = c.previous := by
  have hadd : ∀ {name c}, addLocal name c = .ok u c' → c'.previous = c.previous := by
    intro name c run
    rw [addLocal, bind_of_ok (get_apply c)] at run
    split at run <;> cases run
    · exact report_previous _ _ _
    · rfl
  rw [declareVariable, bind_of_ok (inScope_apply c)] at run
  split at run
  · rw [bind_of_ok (get_apply c)] at run
    dsimp only at run
    split at run
    · rw [complain, bind_of_ok (modify_apply _ c)] at run
      exact (hadd run).trans (report_previous _ _ _)
    · exact hadd run
  · cases run
    rfl

/-- Reading the name of a local and declaring it. -/
theorem localName_works (sound : c.Sound L (depth + 1)) (what : Expectation) :
    Works L false 0 (depth + 1) c (fun _ c' => 2 ≤ c'.draft.locals.length) (variableName what c)
      (variableName what c) := by
  show Works L false (0 + (0 + 0)) _ _ _ _ _
  refine (expect_works sound _ _).bind fun _ c₁ h₁ _ => (declareVariable_works h₁.sound).bind
    fun _ c₂ h₂ hmore => .scope (fun _ => .pure h₂.sound _ (hmore (Nat.succ_pos _)))
      fun houter => ?_
  rw [h₂.sound.depth] at houter
  cases houter

/-- Reading the name of a variable and declaring it. The token with the name has paid for it,
unless it is missing, and then the one before it is taken for the name. -/
theorem variableName_works (sound : c.Sound L depth) (what : Expectation) :
    Works L false (112 + c.previous.lexeme.utf8ByteSize) depth c
      (fun _ c' => (0 < depth → 2 ≤ c'.draft.locals.length) ∧
        c'.worth + c'.previous.lexeme.utf8ByteSize ≤
          c.worth + (112 + 2 * c.previous.lexeme.utf8ByteSize))
      (variableName what c) (variableName what c) := by
  have hread : Works L false 0 depth c _ (expect .identifier what c) (expect .identifier what c) :=
    expect_pays sound (by decide) what
  refine hread.step (by omega) fun _ c₁ h₁ hpaid => ?_
  have hnamed : Works L false (112 + c₁.previous.lexeme.utf8ByteSize) depth c₁
      (fun _ c' => (0 < depth → 2 ≤ c'.draft.locals.length) ∧ c'.previous = c₁.previous)
      ((do
        declareVariable
        if ← inScope then return 0
        nameConstant (← get).previous.lexeme) c₁)
      ((do
        declareVariable
        if ← inScope then return 0
        nameConstant (← get).previous.lexeme) c₁) := by
    have hdeclare := (declareVariable_works h₁.sound).stays fun _ _ => declareVariable_previous
    rw [← Nat.zero_add (112 + _)]
    refine hdeclare.bind fun _ c₂ h₂ ⟨hmore, hsame⟩ => .scope (fun _ => ?_) fun houter => .read ?_
    · exact (Works.pure h₂.sound _ ⟨hmore, hsame⟩).mono (Nat.zero_le _)
    · rw [h₂.sound.depth] at houter
      rw [← hsame]
      exact ((nameConstant_works h₂.sound _).stays fun _ _ => nameConstant_previous).imp
        fun _ _ _ h => ⟨fun hinner => by omega, h.2⟩
  have hworth := h₁.worth
  have henough : c₁.worth + 2 * c₁.previous.lexeme.utf8ByteSize ≤
      c.worth + 2 * c.previous.lexeme.utf8ByteSize := by
    rcases hpaid with hsame | hpaid
    · rw [hsame]
      omega
    · unfold Token.price at hpaid
      omega
  refine hnamed.rebase (by omega) fun _ c₂ h₂ ⟨hmore, hsame⟩ => ?_
  have := h₂.worth
  exact ⟨{ h₁.trans h₂ with worth := by omega }, hmore, by rw [hsame]; omega⟩

/-- The newest local may be used if it is not the function itself. -/
theorem markInitialized_works (sound : c.Sound L depth)
    (named : 0 < depth → 2 ≤ c.draft.locals.length) :
    Works L tidy 0 depth c Any (markInitialized c) (markInitialized c) := by
  refine .scope (fun hinner => ?_) fun _ => .pure sound _ trivial
  obtain ⟨hseated, hlength⟩ := sound.seated.markNewest (named (sound.depth ▸ hinner))
  have hrest : c.draft.markNewest = { c.draft with locals := c.draft.markNewest.locals } := by
    unfold Draft.markNewest
    split <;> rfl
  refine .answer (modify_apply _ _) (.edit sound hseated ?_ ?_ ?_ (fun _ => hlength) ?_) trivial
  · rw [hrest]
    exact sound.handles
  · rw [hrest]
    exact sound.depth
  · rw [hrest]
  · rw [hrest]
    exact Nat.le_refl _

/-- Letting the newest local be used takes no token. -/
theorem markInitialized_previous {u : Unit} (run : markInitialized c = .ok u c') :
    c'.previous = c.previous := by
  rw [markInitialized, bind_of_ok (inScope_apply c)] at run
  split at run <;> cases run <;> rfl

theorem defineVariable_works (sound : c.Sound L depth)
    (named : 0 < depth → 2 ≤ c.draft.locals.length) (global : UInt8) :
    Works L tidy 10 depth c Any (defineVariable global c) (defineVariable global c) :=
  .scope (fun _ => (markInitialized_works sound named).mono (Nat.zero_le _))
    fun _ => emitWith_works sound _ _

/-! ### References -/

/-- Whatever a name means in a draft has an address. -/
theorem addressable_of_seated {d : Draft} (seated : d.Seated) (name : String) :
    Checked.Addressable name d := by
  refine ⟨?_, seated.captures⟩
  cases hfound : d.local? name with
  | none => rfl
  | some found =>
      have hlt := Draft.findLocal?_lt hfound
      have hroom := seated.locals
      simp only [Draft.maxLocals] at hroom
      simp only [Option.all_some, UInt8.toNat_ofNat', decide_eq_true_eq]
      omega

/-- Captured variables leave everything in place. -/
theorem Follows.widen (sound : c.Sound L depth) {d : Draft} {outer : List Draft}
    (inner : c.draft.Widens d) (around : List.Forall₂ Draft.Widens c.enclosing outer) :
    c.Follows L tidy 0 depth { c with draft := d, enclosing := outer } := by
  have hall : List.Forall₂ Draft.Widens c.drafts (d :: outer) := .cons inner around
  have hsizes : (d :: outer).foldr (fun d bytes => d.chunk.size + bytes) 0 =
      c.drafts.foldr (fun d bytes => d.chunk.size + bytes) 0 := by
    generalize c.drafts = ds, d :: outer = es at hall
    induction hall with
    | nil => rfl
    | cons hfirst _ ih => rw [List.foldr_cons, List.foldr_cons, ih, hfirst.kept.chunk]
  refine ⟨⟨sound.final, sound.readable, sound.valid, sound.growth, fun h hh => ?_,
    fun e he => ?_, inner.kept.depth.trans sound.depth⟩, Nat.le_refl _, ?_,
    fun _ => inner.kept.locals, around.imp fun _ _ h => h.kept, ?_⟩
  · rcases mem_rooted.mp hh with hheld | ⟨e, he, hmem⟩
    · exact sound.live h (mem_rooted.mpr (.inl hheld))
    · obtain ⟨e', he', hwidens⟩ := exists_of_forall₂ hall he
      exact sound.live h (mem_rooted.mpr (.inr ⟨e', he', hwidens.handles_eq ▸ hmem⟩))
  · obtain ⟨e', he', hwidens⟩ := exists_of_forall₂ hall he
    exact hwidens.seated (sound.drafts e' he')
  · rw [inner.kept.chunk]
  · refine Nat.le_of_eq ?_
    unfold Compiler.worth load
    rw [show ({ c with draft := d, enclosing := outer } : Compiler).drafts = d :: outer from rfl,
      hsizes]
    rfl

/-- Several complaints. -/
theorem complaints_works (sound : c.Sound L depth) (issues : List Issue) :
    Works L tidy 0 depth c Any (issues.forM complain c) (issues.forM complain c) := by
  simpa using forM_works sound issues fun issue _ h => complain_works h issue

/-- Capturing a variable leaves everything in place. -/
theorem resolveCapture_works (sound : c.Sound L depth) (name : String) :
    Works L tidy 0 depth c Any (resolveCapture name c) (resolveCapture name c) := by
  obtain ⟨hinner, haround⟩ := Draft.capture?_widens name c.draft c.enclosing
  have hset : Works L tidy 0 depth c Any _ _ :=
    .answer (set_apply c { c with
      draft := (c.draft.capture? name c.enclosing).draft
      enclosing := (c.draft.capture? name c.enclosing).enclosing })
      (.widen sound hinner haround) trivial
  exact .read (hset.bind fun _ c₁ h₁ _ => (complaints_works h₁.sound _).bind fun _ _ h _ =>
    .pure h.sound _ trivial)

theorem resolve_works (sound : c.Sound L depth) (name : String) :
    Works L tidy (112 + name.utf8ByteSize) depth c Any (Checked.resolve name c)
      (resolve name c) := by
  have haddress : ∀ {c : Compiler}, c.Sound L depth →
      ∀ d ∈ c.draft :: c.enclosing, Checked.Addressable name d :=
    fun sound d hd => addressable_of_seated (sound.drafts d hd) name
  refine .require (.ensure ?_ fun _ _ follows _ => haddress follows.sound) (haddress sound)
  refine .read ?_
  cases c.draft.local? name with
  | some found =>
      exact ((complaints_works sound _).bind fun _ _ h _ => .pure h.sound _ trivial).mono
        (Nat.zero_le _)
  | none =>
      rw [← Nat.zero_add (112 + _)]
      refine (resolveCapture_works sound name).bind fun index c₁ h₁ _ => ?_
      cases index with
      | some index => exact (Works.pure h₁.sound _ trivial).mono (Nat.zero_le _)
      | none => exact (nameConstant_works h₁.sound name).bind fun _ _ h _ => .pure h.sound _ trivial

/-! ### Functions -/

/-- A function that has been entered is sound, at the outermost depth. -/
theorem entered_sound (sound : c.Sound L depth) {h : Handle} (live : c.heap.Live h) :
    (c.entered h).Sound L 0 := by
  refine ⟨sound.final, sound.readable, sound.valid, sound.growth, fun g hg => ?_,
    fun d hd => ?_, rfl⟩
  · rcases mem_rooted_entered.mp hg with rfl | hg
    · exact live
    · exact sound.live g hg
  · rcases List.mem_cons.mp hd with rfl | hd
    · exact ⟨rfl, (by decide : 1 ≤ 256), Nat.zero_le _⟩
    · exact sound.drafts d hd

/-- A function that has been entered has no code yet. -/
theorem worth_entered (c : Compiler) (h : Handle) : (c.entered h).worth = c.worth := by
  have hload : (c.entered h).load = c.load := by
    simp [load, drafts, entered, Chunk.size]
  unfold worth
  rw [hload]
  rfl

/-- A function that is allocated is charged for the code of its draft, which has been counted
before. -/
theorem allocateFunction_cases (sound : c.Sound L depth) :
    (∃ f heap, allocateFunction c = .ok f { c with heap } ∧ heap.Valid ∧
      heap.policy = c.heap.policy ∧ (∀ h ∈ c.rooted, heap.Live h) ∧ heap.Live f ∧
      heap.bytes ≤ c.heap.bytes + (96 + c.draft.chunk.size)) ∨
    (∃ c', allocateFunction c = .error .overflow c' ∧ maxWord < (c.worth + 96) * L.growth) := by
  have hcharges := Heap.allocate_charges (.function c.draft.finish) c.rooted
  have hsize : (Object.function c.draft.finish).size = 96 + c.draft.chunk.size := rfl
  have hchildren : ∀ g, .object g ∈ (Object.function c.draft.finish).children →
      c.heap.Reaches c.rooted g := fun g hg => by
    refine .root (mem_rooted.mpr (.inr ⟨_, c.draft_mem_drafts, Draft.mem_handles.mpr ?_⟩))
    simpa [Object.children, Draft.finish] using hg
  rcases Heap.allocate_spec sound.valid.toSound sound.live (.function c.draft.finish) with
    ⟨f, heap, hrun, hallocated⟩ | ⟨heap, hrun, -⟩
  · obtain ⟨hbytes, hpolicy⟩ := hcharges.ok _ _ _ hrun
    refine .inl ⟨f, heap, ?_, ?_, hpolicy, ?_, ⟨_, hallocated.object?_self⟩, hsize ▸ hbytes⟩
    · rw [rooted] at hrun
      simp only [allocateFunction, hrun]
    · exact hallocated.valid sound.valid (fun _ => Object.noConfusion) sound.live hchildren
    · exact fun g hg => hallocated.keeps.live (.root hg) (sound.live g hg)
  · refine .inr ⟨{ c with heap }, ?_, (hcharges.overflow _ _ hrun).trans_le ?_⟩
    · rw [rooted] at hrun
      simp only [allocateFunction, hrun]
    · rw [sound.growth, hsize]
      refine Nat.mul_le_mul_right _ ?_
      simp only [worth, load, drafts, List.foldr_cons]
      omega

/-- What is left of the compilation of a function in the functions around it: the function, which
has been charged for. -/
theorem left_follows (sound : c.Sound L depth) {h : Handle}
    (follows : (c.entered h).Follows L false cost depth' o) {heap : Heap} (valid : heap.Valid)
    (policy : heap.policy = o.heap.policy) (live : ∀ h ∈ o.rooted, heap.Live h)
    (bytes : heap.bytes ≤ o.heap.bytes + (96 + o.draft.chunk.size)) :
    o.enclosing ≠ [] ∧
      c.Follows L tidy (cost + 96) depth ({ o with heap } : Compiler).left := by
  obtain ⟨d, ds, hd, hds, henclosing⟩ := List.forall₂_cons_left_iff.mp follows.enclosing
  have hleft : ({ o with heap } : Compiler).left =
      { o with heap, draft := d, enclosing := ds } := by
    simp only [Compiler.left, henclosing]
  have hdrafts : ∀ e ∈ d :: ds, e ∈ o.drafts := fun e he => by
    rw [drafts, henclosing]
    exact List.mem_cons_of_mem _ he
  have hworth := follows.worth
  rw [worth_entered] at hworth
  refine ⟨by rw [henclosing]; exact List.cons_ne_nil _ _, ?_⟩
  rw [hleft]
  refine ⟨⟨follows.sound.final, follows.sound.readable, valid,
    policy ▸ follows.sound.growth, fun g hg => live g ?_, fun e he => ?_,
    hd.depth.trans sound.depth⟩, follows.unread, ?_, fun _ => hd.locals, hds, ?_⟩
  · rw [mem_rooted] at hg ⊢
    exact hg.imp_right (Exists.imp fun e he => ⟨hdrafts e he.1, he.2⟩)
  · exact follows.sound.drafts e (hdrafts e he)
  · rw [hd.chunk]
  · have hsplit : o.worth = o.heap.bytes + (o.draft.chunk.size +
        (d :: ds).foldr (fun d bytes => d.chunk.size + bytes) 0) + o.due := by
      simp only [worth, load, drafts, henclosing, List.foldr_cons]
    simp only [worth, load, drafts, due] at hsplit hworth ⊢
    omega

end Compiler

end Lox
