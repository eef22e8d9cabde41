import Lox.Proofs.Compile.Expressions
import Lox.Proofs.Compile.Scoping

/-!
# Compiled statements

A run of the statement compiler that reports nothing has read a statement of the grammar and
written the code of its tree. A statement leaves the locals as they are; a declaration inside
a scope adds its own. Every lemma starts behind the word that tells the form of the statement,
and is about the state `b` in front of that word.

## Main results

* `ifStatement_spec`, `whileStatement_spec`, `forStatement_spec` — control flow.
* `varDeclaration_spec` — the declaration of a variable.
-/

namespace Lox.Compiler

variable {c c' c'' b : Compiler} {u : Unit} {word : Token}

/-- A compiler of expressions. -/
def ParsesExpressions (expression : CompileM Unit) : Prop :=
  ∀ (c : Compiler) (u : Unit) (c' : Compiler), expression c = .ok u c' →
    c.Silently c' (c.Expresses .assignment c')

/-- Between two states a statement was read and its code was written. -/
def States (c : Compiler) (isOpen : Bool) (c' : Compiler) : Prop :=
  (∃ ts s bs, Grammar.Statement isOpen ts s ∧ c.Emits ts bs [] c' ∧
    ∀ K : Context, K.Suits c' → Encoding.Declaration K s bs []) ∧
  (isOpen = true → c'.current.kind ≠ .elseWord)

/-- A compiler of statements. -/
def ParsesStatements (statement : CompileM Unit) : Prop :=
  ∀ (c : Compiler) (u : Unit) (c' : Compiler), statement c = .ok u c' →
    c.Silently c' (c.draft.Settled → ∃ isOpen, c.States isOpen c')

/-- The locals that a declaration adds to a scope belong to it, and outside of all scopes there
are none. -/
def Scoped (c : Compiler) (shapes : List (String × Option Nat)) : Prop :=
  (∀ s ∈ shapes, s.2 = some c.draft.depth) ∧ (c.draft.depth = 0 → shapes = [])

/-- Between two states declarations were read and their code was written. -/
def Lists (c c' : Compiler) : Prop :=
  ∃ ts ss bs shapes, Grammar.Declarations ts ss ∧ c.Emits ts bs shapes c' ∧ c.Scoped shapes ∧
    ∀ (K : Context) (added : List Variable), added.length = shapes.length →
      (K.push added).Suits c' → Encoding.Declarations K ss bs added

/-- A compiler of the declarations of a block, with its closing brace. -/
def ParsesBlocks (block : CompileM Unit) : Prop :=
  ∀ (c : Compiler) (u : Unit) (c' : Compiler), block c = .ok u c' →
    c.Silently c' (c.draft.Settled → ∃ mid, c.Lists mid ∧ mid.Emits [mid.current] [] [] c' ∧
      mid.current.kind = .rightBrace)

/-! ### Simple statements -/

/-- Between two states an expression with a semicolon behind it was read. -/
def Ends (c c' : Compiler) : Prop :=
  ∃ ts e bs, Grammar.Ended ts e ∧ c.Emits ts bs [] c' ∧
    ∀ K : Context, K.Suits c' → Encoding.Expression K e bs

/-- An expression and the semicolon behind it. -/
theorem ended_spec {expression : CompileM Unit} {what : Expectation} {u' : Unit}
    (parts : ParsesExpressions expression) (first : expression c = .ok u c')
    (second : expect .semicolon what c' = .ok u' c'') : c.Silently c'' (c.Ends c'') := by
  intro quiet
  obtain ⟨hquiet, hsecond⟩ := expect_spec second (by decide) quiet
  obtain ⟨hquiet, hfirst⟩ := parts _ _ _ first hquiet
  refine ⟨hquiet, fun inOrder => ?_⟩
  obtain ⟨ts, e, bs, hparsed, emits, hcode⟩ := hfirst inOrder
  obtain ⟨semicolon, hkind, -⟩ := hsecond emits.inOrder
  exact ⟨_, e, bs, .intro hparsed hkind, by simpa using emits.trans semicolon,
    fun K suits => hcode K (suits.earlier emits.inOrder semicolon)⟩

/-- An expression whose value is printed. -/
theorem printStatement_spec {expression : CompileM Unit} (parts : ParsesExpressions expression)
    (run : printStatement expression c = .ok u c') (kind : word.kind = .printWord) :
    c.Silently c' (b.Emits [word] [] [] c → b.States false c') := by
  intro quiet
  obtain ⟨_, c₁, hfirst, run⟩ := bind_eq_ok_iff.mp run
  obtain ⟨_, c₂, hsecond, hemit⟩ := bind_eq_ok_iff.mp run
  obtain ⟨hquiet, hthird⟩ := (emit_writes hemit).silently quiet
  obtain ⟨hquiet, hended⟩ := ended_spec parts hfirst hsecond hquiet
  refine ⟨hquiet, fun inOrder before => ⟨?_, nofun⟩⟩
  obtain ⟨ts, e, bs, hparsed, emits, hcode⟩ := hended inOrder
  have third := hthird emits.inOrder
  exact ⟨word :: ts, _, bs ++ OpCode.print.plain, .print kind hparsed,
    by simpa using (before.trans emits).trans third,
    fun K suits => .print (hcode K (suits.earlier emits.inOrder third))⟩

/-- An expression whose value is dropped. -/
theorem expressionStatement_spec {expression : CompileM Unit}
    (parts : ParsesExpressions expression) (run : expressionStatement expression c = .ok u c') :
    c.Silently c' (∃ ts e bs, Grammar.Ended ts e ∧ c.Emits ts bs [] c' ∧
      ∀ K : Context, K.Suits c' → Encoding.Declaration K (.expression e) bs []) := by
  intro quiet
  obtain ⟨_, c₁, hfirst, run⟩ := bind_eq_ok_iff.mp run
  obtain ⟨_, c₂, hsecond, hemit⟩ := bind_eq_ok_iff.mp run
  obtain ⟨hquiet, hthird⟩ := (emit_writes hemit).silently quiet
  obtain ⟨hquiet, hended⟩ := ended_spec parts hfirst hsecond hquiet
  refine ⟨hquiet, fun inOrder => ?_⟩
  obtain ⟨ts, e, bs, hparsed, emits, hcode⟩ := hended inOrder
  have third := hthird emits.inOrder
  exact ⟨ts, e, bs ++ OpCode.pop.plain, hparsed, by simpa using emits.trans third,
    fun K suits => .expression (hcode K (suits.earlier emits.inOrder third))⟩

/-- Only the script has no functions around it. -/
theorem outer_ne_nil {K : Context} (suits : K.Suits c) (inOrder : c.InOrder)
    (inner : c.draft.isScript = false) : K.outer ≠ [] := by
  intro hnil
  have houter := suits.outer
  rw [hnil, List.forall₂_nil_right_iff, List.map_eq_nil_iff] at houter
  have hlinked := inOrder.linked
  rw [drafts, houter] at hlinked
  cases hlinked.2.symm.trans inner

/-- A return from a function. -/
theorem returnStatement_spec {expression : CompileM Unit} (parts : ParsesExpressions expression)
    (run : returnStatement expression c = .ok u c') (kind : word.kind = .returnWord) :
    c.Silently c' (b.Emits [word] [] [] c → b.States false c') := by
  intro quiet
  rw [returnStatement, bind_of_ok (get_apply c)] at run
  -- what follows the check stands in both of its branches
  have tail : ∀ c₁, (accept .semicolon >>= fun nothing =>
      if nothing = true then emitReturn
      else do
        expression
        expect .semicolon .semicolonAfterReturnValue
        emit .giveBack) c₁ = .ok u c' →
      c₁.Silently c' (c₁.draft.isScript = false → b.Emits [word] [] [] c₁ → b.States false c') := by
    intro c₁ htail quiet
    obtain ⟨nothing, c₂, haccept, hrest⟩ := bind_eq_ok_iff.mp htail
    rcases accept_spec haccept with ⟨rfl, hkind, hadvance⟩ | ⟨rfl, -, rfl⟩
    · obtain ⟨_, c₃, hnil, hback⟩ := bind_eq_ok_iff.mp hrest
      obtain ⟨hquiet, hsecond⟩ := ((emit_writes hnil).trans (emit_writes hback)).silently quiet
      obtain ⟨hquiet, hfirst⟩ := advance_spec hadvance (by rw [hkind]; decide) hquiet
      refine ⟨hquiet, fun inOrder inner before => ⟨?_, nofun⟩⟩
      obtain ⟨first, -⟩ := hfirst inOrder
      have second := hsecond first.inOrder
      have whole : b.Emits [word, c₁.current] (OpCode.pushNil.plain ++ OpCode.giveBack.plain)
        [] c' := by
        simpa using (before.trans first).trans second
      refine ⟨_, _, _, .giveBackNothing kind hkind, whole, fun K suits => .giveBack ?_ .nil⟩
      refine outer_ne_nil suits whole.inOrder ?_
      rw [whole.draft.isScript, ← before.draft.isScript]
      exact inner
    · obtain ⟨_, c₃, hfirst, hrest⟩ := bind_eq_ok_iff.mp hrest
      obtain ⟨_, c₄, hsecond, hemit⟩ := bind_eq_ok_iff.mp hrest
      obtain ⟨hquiet, hthird⟩ := (emit_writes hemit).silently quiet
      obtain ⟨hquiet, hended⟩ := ended_spec parts hfirst hsecond hquiet
      refine ⟨hquiet, fun inOrder inner before => ⟨?_, nofun⟩⟩
      obtain ⟨ts, e, bs, hparsed, emits, hcode⟩ := hended inOrder
      have third := hthird emits.inOrder
      have whole : b.Emits (word :: ts) (bs ++ OpCode.giveBack.plain) [] c' := by
        simpa using (before.trans emits).trans third
      refine ⟨_, _, _, .giveBack kind hparsed, whole, fun K suits =>
        .giveBack ?_ (hcode K (suits.earlier emits.inOrder third))⟩
      refine outer_ne_nil suits whole.inOrder ?_
      rw [whole.draft.isScript, ← before.draft.isScript]
      exact inner
  split at run
  · obtain ⟨_, c₁, hcomplain, run⟩ := bind_eq_ok_iff.mp run
    exact absurd (tail c₁ run quiet).1 (not_quiet_complain hcomplain)
  · rename_i hscript
    obtain ⟨hquiet, hspec⟩ := tail c run quiet
    exact ⟨hquiet, fun inOrder => hspec inOrder (by simpa using hscript)⟩

/-! ### Control flow -/

/-- A condition in parentheses. -/
theorem condition_spec {expression : CompileM Unit} {what what' : Expectation} {c₁ c₂ : Compiler}
    {u₁ u₂ u₃ : Unit} (parts : ParsesExpressions expression)
    (left : expect .leftParen what c = .ok u₁ c₁) (inner : expression c₁ = .ok u₂ c₂)
    (right : expect .rightParen what' c₂ = .ok u₃ c') :
    c.Silently c' (∃ l ts r e bs, l.kind = .leftParen ∧ Grammar.Expression .assignment ts e ∧
      r.kind = .rightParen ∧ c.Emits (l :: ts ++ [r]) bs [] c' ∧
        ∀ K : Context, K.Suits c' → Encoding.Expression K e bs) := by
  intro quiet
  obtain ⟨hquiet, hthird⟩ := expect_spec right (by decide) quiet
  obtain ⟨hquiet, hsecond⟩ := parts _ _ _ inner hquiet
  obtain ⟨hquiet, hfirst⟩ := expect_spec left (by decide) hquiet
  refine ⟨hquiet, fun inOrder => ?_⟩
  obtain ⟨first, hleft, -⟩ := hfirst inOrder
  obtain ⟨ts, e, bs, hparsed, second, hcode⟩ := hsecond first.inOrder
  obtain ⟨third, hright, -⟩ := hthird second.inOrder
  exact ⟨_, ts, _, e, bs, hleft, hparsed, hright, by simpa using (first.trans second).trans third,
    fun K suits => hcode K (suits.earlier second.inOrder third)⟩

/-- The end of a choice: its second branch, if there is one, and the patch of the jump to it. -/
theorem elseBranch_spec {statement : CompileM Unit} {toEnd : Nat}
    (branches : ParsesStatements statement)
    (run : (do if ← accept .elseWord then statement
               patchJump toEnd) c = .ok u c') (quiet : c'.Quiet)
    (kind : word.kind = .ifWord) :
    ∃ mid distance, mid.Patches toEnd distance c' ∧ c.Quiet ∧
      (c.InOrder → c.draft.Settled → ∃ us no ds, c.Emits us ds [] mid ∧
        (∀ K : Context, K.Suits mid → Encoding.Declaration K no ds []) ∧
        ∀ {l r : Token} {cs ts : List Token} {e : Expr} {yes : Stmt} {isOpen : Bool},
          l.kind = .leftParen → Grammar.Expression .assignment cs e → r.kind = .rightParen →
          Grammar.Statement isOpen ts yes → (isOpen = true → c.current.kind ≠ .elseWord) →
          ∃ isOpen', Grammar.Statement isOpen' (word :: l :: cs ++ r :: ts ++ us)
            (.choice e yes no) ∧ (isOpen' = true → mid.current.kind ≠ .elseWord)) := by
  obtain ⟨more, c₁, haccept, hrest⟩ := bind_eq_ok_iff.mp run
  rcases accept_spec haccept with ⟨rfl, helse, hadvance⟩ | ⟨rfl, helse, rfl⟩
  · obtain ⟨_, c₂, hstatement, hpatch⟩ := bind_eq_ok_iff.mp hrest
    obtain ⟨hquiet, distance, patches⟩ := patchJump_spec hpatch quiet
    obtain ⟨hquiet, hsecond⟩ := branches _ _ _ hstatement hquiet
    obtain ⟨hquiet, hfirst⟩ := advance_spec hadvance (by rw [helse]; decide) hquiet
    refine ⟨c₂, distance, patches, hquiet, fun inOrder settled => ?_⟩
    obtain ⟨first, -⟩ := hfirst inOrder
    obtain ⟨isOpen', ⟨us, no, ds, hparsed, second, hcode⟩, hopen⟩ :=
      hsecond first.inOrder (first.draft.settled settled nofun)
    refine ⟨c.current :: us, no, ds, by simpa using first.trans second, hcode, ?_⟩
    intro l r cs ts e yes isOpen hl he hr hyes hclosed
    have hclosed' : isOpen = false := by
      cases isOpen with
      | false => rfl
      | true => exact absurd helse (hclosed rfl)
    subst hclosed'
    exact ⟨isOpen', .ifElse kind hl he hr hyes helse hparsed, hopen⟩
  · obtain ⟨hquiet, distance, patches⟩ := patchJump_spec hrest quiet
    refine ⟨c₁, distance, patches, hquiet, fun inOrder _ => ⟨[], .block [], [], .refl inOrder,
      fun K _ => .block .nil, ?_⟩⟩
    intro l r cs ts e yes isOpen hl he hr hyes _
    exact ⟨true, by simpa using .ifThen kind hl he hr hyes, fun _ => helse⟩

/-- A choice. -/
theorem ifStatement_spec {expression statement : CompileM Unit}
    (parts : ParsesExpressions expression) (branches : ParsesStatements statement)
    (run : ifStatement expression statement c = .ok u c') (kind : word.kind = .ifWord) :
    c.Silently c' (b.draft.Settled → b.Emits [word] [] [] c → ∃ isOpen, b.States isOpen c') := by
  intro quiet
  obtain ⟨_, c₁, hleft, run⟩ := bind_eq_ok_iff.mp run
  obtain ⟨_, c₂, hcondition, run⟩ := bind_eq_ok_iff.mp run
  obtain ⟨_, c₃, hright, run⟩ := bind_eq_ok_iff.mp run
  obtain ⟨toElse, c₄, hskip, run⟩ := bind_eq_ok_iff.mp run
  obtain ⟨_, c₅, hpop, run⟩ := bind_eq_ok_iff.mp run
  obtain ⟨_, c₆, hyes, run⟩ := bind_eq_ok_iff.mp run
  obtain ⟨toEnd, c₇, hjump, run⟩ := bind_eq_ok_iff.mp run
  obtain ⟨_, c₈, hpatch, run⟩ := bind_eq_ok_iff.mp run
  obtain ⟨_, c₉, hpop', run⟩ := bind_eq_ok_iff.mp run
  obtain ⟨c₁₀, distance', patches', hquiet, hno⟩ := elseBranch_spec branches run quiet kind
  obtain ⟨hquiet, heighth⟩ := (emit_writes hpop').silently hquiet
  obtain ⟨hquiet, distance, patches⟩ := patchJump_spec hpatch hquiet
  obtain ⟨hwrites', hplace'⟩ := emitJump_writes hjump
  obtain ⟨hquiet, hsixth⟩ := hwrites'.silently hquiet
  obtain ⟨hquiet, hfifth⟩ := branches _ _ _ hyes hquiet
  obtain ⟨hwrites, hplace⟩ := emitJump_writes hskip
  obtain ⟨hquiet, hfourth⟩ := (hwrites.trans (emit_writes hpop)).silently hquiet
  obtain ⟨hquiet, hfirst⟩ := condition_spec parts hleft hcondition hright hquiet
  refine ⟨hquiet, fun inOrder settled before => ?_⟩
  obtain ⟨l, ts, r, e, bs, hl, he, hr, first, hcode⟩ := hfirst inOrder
  have fourth := hfourth first.inOrder
  have settled₅ := ((before.trans first).trans fourth).draft.settled settled nofun
  obtain ⟨isOpen, ⟨ys, yes, cs, hyes, fifth, hcode'⟩, hopen⟩ := hfifth fourth.inOrder settled₅
  have sixth := hsixth fifth.inOrder
  have front : b.Emits (word :: l :: ts ++ r :: ys) (bs ++ OpCode.jumpIfFalse.long maxJump ++
      (OpCode.pop.plain ++ cs ++ OpCode.jump.long maxJump)) [] c₇ := by
    simpa using (((before.trans first).trans fourth).trans fifth).trans sixth
  have hsize := front.size
  obtain ⟨rfl, hshort, patched⟩ := front.patch patches (by
    rw [hplace, first.size, before.size]
    rfl)
  have hlength : (OpCode.pop.plain ++ cs ++ OpCode.jump.long maxJump).length = cs.length + 4 := by
    simp only [List.length_append, OpCode.length_plain, OpCode.length_long]
    omega
  rw [hlength] at hshort patched
  have eighth := heighth patched.inOrder
  obtain ⟨us, no, ds, ninth, hcode'', hgrammar⟩ :=
    hno eighth.inOrder ((patched.trans eighth).draft.settled settled nofun)
  have whole : b.Emits (word :: l :: ts ++ r :: ys ++ us) (bs ++
      OpCode.jumpIfFalse.long (cs.length + 4) ++ OpCode.pop.plain ++ cs ++
      OpCode.jump.long maxJump ++ (OpCode.pop.plain ++ ds)) [] c₁₀ := by
    simpa using (patched.trans eighth).trans ninth
  obtain ⟨rfl, hshort', patched'⟩ := whole.patch patches' (by
    have := hwrites'.size
    simp only [List.length_append, OpCode.length_plain, OpCode.length_long] at hsize this ⊢
    omega)
  rw [List.length_append, OpCode.length_plain, Nat.add_comm 1] at hshort' patched'
  obtain ⟨isOpen', hstatement, hopen'⟩ := hgrammar hl he hr hyes (by
    rw [(eighth.still rfl).1, patches.current, (sixth.still rfl).1]
    exact hopen)
  refine ⟨isOpen', ⟨_, _, _, hstatement, patched', fun K suits => ?_⟩, ?_⟩
  · have suits₁₀ := patches'.suits suits
    have suits₈ := suits₁₀.earlier patched.inOrder (eighth.trans ninth)
    have suits₆ := (patches.suits suits₈).earlier fifth.inOrder sixth
    have suits₃ := suits₆.earlier first.inOrder (fourth.trans fifth)
    have := Encoding.Declaration.choice (hcode K suits₃) (hcode' K suits₆) (hcode'' K suits₁₀)
      hshort hshort'
    simpa using this
  · rw [patches'.current]
    exact hopen'

/-- The size of the code. -/
theorem codeSize_apply (c : Compiler) : codeSize c = .ok c.draft.chunk.code.size c := rfl

/-- A loop with its test in front. -/
theorem whileStatement_spec {expression statement : CompileM Unit}
    (parts : ParsesExpressions expression) (branches : ParsesStatements statement)
    (run : whileStatement expression statement c = .ok u c') (kind : word.kind = .whileWord) :
    c.Silently c' (b.draft.Settled → b.Emits [word] [] [] c → ∃ isOpen, b.States isOpen c') := by
  intro quiet
  rw [whileStatement, bind_of_ok (codeSize_apply c)] at run
  obtain ⟨_, c₁, hleft, run⟩ := bind_eq_ok_iff.mp run
  obtain ⟨_, c₂, hcondition, run⟩ := bind_eq_ok_iff.mp run
  obtain ⟨_, c₃, hright, run⟩ := bind_eq_ok_iff.mp run
  obtain ⟨toEnd, c₄, hskip, run⟩ := bind_eq_ok_iff.mp run
  obtain ⟨_, c₅, hpop, run⟩ := bind_eq_ok_iff.mp run
  obtain ⟨_, c₆, hbody, run⟩ := bind_eq_ok_iff.mp run
  obtain ⟨_, c₇, hloop, run⟩ := bind_eq_ok_iff.mp run
  obtain ⟨_, c₈, hpatch, hpop'⟩ := bind_eq_ok_iff.mp run
  obtain ⟨hquiet, hninth⟩ := (emit_writes hpop').silently quiet
  obtain ⟨hquiet, distance, patches⟩ := patchJump_spec hpatch hquiet
  obtain ⟨hback, hwrites'⟩ := emitLoop_writes hloop hquiet
  obtain ⟨hquiet, hseventh⟩ := hwrites'.silently hquiet
  obtain ⟨hquiet, hsixth⟩ := branches _ _ _ hbody hquiet
  obtain ⟨hwrites, hplace⟩ := emitJump_writes hskip
  obtain ⟨hquiet, hfourth⟩ := (hwrites.trans (emit_writes hpop)).silently hquiet
  obtain ⟨hquiet, hfirst⟩ := condition_spec parts hleft hcondition hright hquiet
  refine ⟨hquiet, fun inOrder settled before => ?_⟩
  obtain ⟨l, ts, r, e, bs, hl, he, hr, first, hcode⟩ := hfirst inOrder
  have fourth := hfourth first.inOrder
  obtain ⟨isOpen, ⟨us, body, cs, hparsed, sixth, hcode'⟩, hopen⟩ :=
    hsixth fourth.inOrder (((before.trans first).trans fourth).draft.settled settled nofun)
  have seventh := hseventh sixth.inOrder
  have hsize := ((first.trans fourth).trans sixth).size
  have hreach : c₆.draft.chunk.code.size + 1 - c.draft.chunk.code.size + 2 =
      (bs ++ OpCode.jumpIfFalse.long 0 ++ OpCode.pop.plain).length + cs.length + 3 := by
    simp only [List.length_append, OpCode.length_plain, OpCode.length_long] at hsize ⊢
    omega
  rw [hreach] at hback seventh
  have front : b.Emits (word :: l :: ts ++ r :: us) (bs ++ OpCode.jumpIfFalse.long maxJump ++
      (OpCode.pop.plain ++ cs ++ OpCode.loop.long ((bs ++ OpCode.jumpIfFalse.long 0 ++
        OpCode.pop.plain).length + cs.length + 3))) [] c₇ := by
    simpa using (((before.trans first).trans fourth).trans sixth).trans seventh
  obtain ⟨rfl, hshort, patched⟩ := front.patch patches (by
    rw [hplace, first.size, before.size]
    rfl)
  have ninth := hninth patched.inOrder
  have hlength : ∀ n, (OpCode.pop.plain ++ cs ++ OpCode.loop.long n).length = 1 + cs.length + 3 :=
    fun n => by simp only [List.length_append, OpCode.length_plain, OpCode.length_long]
  rw [hlength] at hshort patched
  refine ⟨isOpen, ⟨_, _, _, .while kind hl he hr hparsed, by simpa using patched.trans ninth,
    fun K suits => ?_⟩, fun h => ?_⟩
  · have suits₇ := patches.suits (suits.earlier patched.inOrder ninth)
    have suits₆ := suits₇.earlier sixth.inOrder seventh
    have suits₃ := suits₆.earlier first.inOrder (fourth.trans sixth)
    have := Encoding.Declaration.loop (.some (hcode K suits₃) (by simpa using hshort)) .none
      (hcode' K suits₆) (by simpa using hback)
    simpa using this
  · rw [(ninth.still rfl).1, patches.current, (seventh.still rfl).1]
    exact hopen h

/-! ### Variables -/

/-- The initial value of a variable, which is `nil` unless one is given. -/
theorem initial_spec {expression : CompileM Unit} {rest : CompileM Unit}
    (parts : ParsesExpressions expression)
    (run : (do if ← accept .equal then expression else emit .pushNil
               rest) c = .ok u c') :
    ∃ mid, rest mid = .ok u c' ∧ c.Silently mid (∃ us e ds, c.Emits us ds [] mid ∧
      (∀ K : Context, K.Suits mid → Encoding.Expression K e ds) ∧
      ∀ {word name semicolon : Token}, word.kind = .varWord → name.kind = .identifier →
        semicolon.kind = .semicolon →
        Grammar.VariableDeclaration (word :: name :: us ++ [semicolon])
          (.variable name.lexeme e)) := by
  obtain ⟨given, c₁, haccept, hrest⟩ := bind_eq_ok_iff.mp run
  rcases accept_spec haccept with ⟨rfl, hkind, hadvance⟩ | ⟨rfl, -, rfl⟩
  · obtain ⟨_, c₂, hvalue, hrest⟩ := bind_eq_ok_iff.mp hrest
    refine ⟨c₂, hrest, fun quiet => ?_⟩
    obtain ⟨hquiet, hsecond⟩ := parts _ _ _ hvalue quiet
    obtain ⟨hquiet, hfirst⟩ := advance_spec hadvance (by rw [hkind]; decide) hquiet
    refine ⟨hquiet, fun inOrder => ?_⟩
    obtain ⟨first, -⟩ := hfirst inOrder
    obtain ⟨ts, e, bs, hparsed, second, hcode⟩ := hsecond first.inOrder
    exact ⟨_, e, bs, first.trans second, hcode, fun hword hname hsemicolon =>
      .initial hword hname hkind (.intro hparsed hsemicolon)⟩
  · obtain ⟨_, c₂, hnil, hrest⟩ := bind_eq_ok_iff.mp hrest
    refine ⟨c₂, hrest, fun quiet => ?_⟩
    obtain ⟨hquiet, hfirst⟩ := (emit_writes hnil).silently quiet
    exact ⟨hquiet, fun inOrder => ⟨[], .literal .nil, _, hfirst inOrder, fun _ _ => .nil,
      fun hword hname hsemicolon => .bare hword hname hsemicolon⟩⟩

/-- The declaration of a variable. -/
theorem varDeclaration_spec {expression : CompileM Unit} (parts : ParsesExpressions expression)
    (run : varDeclaration expression c = .ok u c') (kind : word.kind = .varWord) :
    c.Silently c' (b.draft.Settled → b.Emits [word] [] [] c → ∃ ts s bs shapes,
      Grammar.VariableDeclaration ts s ∧ b.Emits ts bs shapes c' ∧ b.Scoped shapes ∧
      ∀ (K : Context) (added : List Variable), added.length = shapes.length →
        (K.push added).Suits c' → Encoding.Declaration K s bs added) := by
  intro quiet
  obtain ⟨i, c₁, hname, run⟩ := bind_eq_ok_iff.mp run
  obtain ⟨c₂, run, hinitial⟩ := initial_spec parts run
  obtain ⟨_, c₃, hsemicolon, hdefine⟩ := bind_eq_ok_iff.mp run
  rcases defineVariable_cases hdefine with ⟨hzero, hwrites⟩ | ⟨hpos, rfl⟩
  · obtain ⟨hquiet, hfourth⟩ := hwrites.silently quiet
    obtain ⟨hquiet, hthird⟩ := expect_spec hsemicolon (by decide) hquiet
    obtain ⟨hquiet, hsecond⟩ := hinitial hquiet
    obtain ⟨hquiet, hfirst⟩ := variableName_spec hname hquiet
    refine ⟨hquiet, fun inOrder settled before => ?_⟩
    obtain ⟨hkind, -, ⟨hdepth, first, htext⟩ | ⟨hpos, first⟩⟩ := hfirst inOrder
    · obtain ⟨us, e, ds, second, hcode, hgrammar⟩ := hsecond first.inOrder
      obtain ⟨third, hend, -⟩ := hthird second.inOrder
      have fourth := hfourth third.inOrder
      refine ⟨_, _, ds ++ OpCode.defineGlobal.short i, [], hgrammar kind hkind hend,
        by simpa using (((before.trans first).trans second).trans third).trans fourth,
        ⟨nofun, fun _ => rfl⟩, fun K added hlength suits => ?_⟩
      obtain rfl := List.eq_nil_of_length_eq_zero hlength
      rw [Context.push_nil] at suits
      have suits₂ := suits.earlier second.inOrder (third.trans fourth)
      have suits₁ := suits₂.earlier first.inOrder second
      refine .variable (hcode K suits₂) (.global ?_ (htext K suits₁))
      rw [(suits₁.earlier inOrder first).inScope, hdepth]
      rfl
    · obtain ⟨us, e, ds, second, -⟩ := hsecond first.inOrder
      have := (first.trans (second.trans (hthird second.inOrder).1)).draft.depth
      omega
  · have hquiet : c₃.Quiet := ⟨quiet.alarm, quiet.diagnostics⟩
    obtain ⟨hquiet, hthird⟩ := expect_spec hsemicolon (by decide) hquiet
    obtain ⟨hquiet, hsecond⟩ := hinitial hquiet
    obtain ⟨hquiet, hfirst⟩ := variableName_spec hname hquiet
    refine ⟨hquiet, fun inOrder settled before => ?_⟩
    obtain ⟨hkind, -, ⟨hdepth, first, -⟩ | ⟨hdepth, first⟩⟩ := hfirst inOrder
    · obtain ⟨us, e, ds, second, -⟩ := hsecond first.inOrder
      have := (first.trans (second.trans (hthird second.inOrder).1)).draft.depth
      omega
    · obtain ⟨us, e, ds, second, hcode, hgrammar⟩ := hsecond first.inOrder
      obtain ⟨third, hend, -⟩ := hthird second.inOrder
      have whole : b.Emits (word :: c.current :: us ++ [c₂.current]) ds
          [(c.current.lexeme, none)] c₃ := by
        simpa using ((before.trans first).trans second).trans third
      have hdepth' : b.draft.depth = c.draft.depth := before.draft.depth.symm
      refine ⟨_, _, ds, [(c.current.lexeme, some b.draft.depth)], hgrammar kind hkind hend,
        whole.initialized, ⟨?_, fun h => ?_⟩, fun K added hlength suits => ?_⟩
      · simp
      · omega
      · obtain ⟨suits₃, captured, rfl⟩ := suits_of_initialized settled whole hlength suits
        have suits₂ := suits₃.earlier second.inOrder third
        have hscope : K.inScope = true := by
          rw [suits₂.inScope, (first.trans second).draft.depth]
          simpa using hdepth
        simpa using Encoding.Declaration.variable (hcode K suits₂) (.local captured hscope)

/-! ### Loops with three clauses -/

/-- What a loop does once before its first test. -/
theorem forInitializer_spec {expression : CompileM Unit} (parts : ParsesExpressions expression)
    (run : forInitializer expression c = .ok u c') :
    c.Silently c' (c.draft.Settled → ∃ ts ss bs shapes, Grammar.Initializer ts ss ∧
      c.Emits ts bs shapes c' ∧ c.Scoped shapes ∧
      ∀ (K : Context) (added : List Variable), added.length = shapes.length →
        (K.push added).Suits c' → Encoding.Declarations K ss bs added) := by
  intro quiet
  obtain ⟨nothing, c₁, haccept, hrest⟩ := bind_eq_ok_iff.mp run
  rcases accept_spec haccept with ⟨rfl, hkind, hadvance⟩ | ⟨rfl, -, rfl⟩
  · cases hrest
    obtain ⟨hquiet, hfirst⟩ := advance_spec hadvance (by rw [hkind]; decide) quiet
    refine ⟨hquiet, fun inOrder _ => ⟨_, [], [], [], .none hkind, (hfirst inOrder).1,
      ⟨nofun, fun _ => rfl⟩, fun K added hlength _ => ?_⟩⟩
    obtain rfl := List.eq_nil_of_length_eq_zero hlength
    exact .nil
  · obtain ⟨isVariable, c₂, haccept', hlast⟩ := bind_eq_ok_iff.mp hrest
    rcases accept_spec haccept' with ⟨rfl, hkind, hadvance⟩ | ⟨rfl, -, rfl⟩
    · obtain ⟨hquiet, hsecond⟩ := varDeclaration_spec (b := c₁) parts hlast hkind quiet
      obtain ⟨hquiet, hfirst⟩ := advance_spec hadvance (by rw [hkind]; decide) hquiet
      refine ⟨hquiet, fun inOrder settled => ?_⟩
      obtain ⟨first, -⟩ := hfirst inOrder
      obtain ⟨ts, s, bs, shapes, hparsed, emits, hscoped, hcode⟩ :=
        hsecond first.inOrder settled first
      refine ⟨ts, [s], bs, shapes, .variable hparsed, emits,
        hscoped, fun K added hlength suits => ?_⟩
      simpa using Encoding.Declarations.cons (hcode K added hlength suits) .nil
    · obtain ⟨hquiet, hspec⟩ := expressionStatement_spec parts hlast quiet
      refine ⟨hquiet, fun inOrder _ => ?_⟩
      obtain ⟨ts, e, bs, hparsed, emits, hcode⟩ := hspec inOrder
      refine ⟨ts, _, bs, [], .expression hparsed, emits, ⟨nofun, fun _ => rfl⟩,
        fun K added hlength suits => ?_⟩
      obtain rfl := List.eq_nil_of_length_eq_zero hlength
      simpa using Encoding.Declarations.cons (hcode K suits) .nil

/-- The test of a loop, whose jump out of it is yet to be patched. -/
theorem forCondition_spec {expression : CompileM Unit} {toEnd : Option Nat}
    (parts : ParsesExpressions expression) (run : forCondition expression c = .ok toEnd c') :
    c.Silently c' ((toEnd = none ∧ ∃ ts, Grammar.Condition ts none ∧ c.Emits ts [] [] c') ∨
      ∃ ts e bs, toEnd = some (c.draft.chunk.code.size + bs.length + 1) ∧
        Grammar.Condition ts (some e) ∧
        c.Emits ts (bs ++ OpCode.jumpIfFalse.long maxJump ++ OpCode.pop.plain) [] c' ∧
        ∀ K : Context, K.Suits c' → Encoding.Expression K e bs) := by
  intro quiet
  obtain ⟨nothing, c₁, haccept, hrest⟩ := bind_eq_ok_iff.mp run
  rcases accept_spec haccept with ⟨rfl, hkind, hadvance⟩ | ⟨rfl, -, rfl⟩
  · cases hrest
    obtain ⟨hquiet, hfirst⟩ := advance_spec hadvance (by rw [hkind]; decide) quiet
    exact ⟨hquiet, fun inOrder => .inl ⟨rfl, _, .none hkind, (hfirst inOrder).1⟩⟩
  · obtain ⟨_, c₂, hexpression, hrest⟩ := bind_eq_ok_iff.mp hrest
    obtain ⟨_, c₃, hsemicolon, hrest⟩ := bind_eq_ok_iff.mp hrest
    obtain ⟨operand, c₄, hskip, hrest⟩ := bind_eq_ok_iff.mp hrest
    obtain ⟨_, c₅, hpop, hrest⟩ := bind_eq_ok_iff.mp hrest
    cases hrest
    obtain ⟨hwrites, hplace⟩ := emitJump_writes hskip
    obtain ⟨hquiet, hsecond⟩ := (hwrites.trans (emit_writes hpop)).silently quiet
    obtain ⟨hquiet, hended⟩ := ended_spec parts hexpression hsemicolon hquiet
    refine ⟨hquiet, fun inOrder => .inr ?_⟩
    obtain ⟨ts, e, bs, hparsed, first, hcode⟩ := hended inOrder
    have second := hsecond first.inOrder
    refine ⟨ts, e, bs, ?_, .some hparsed, by simpa using first.trans second,
      fun K suits => hcode K (suits.earlier first.inOrder second)⟩
    rw [hplace, first.size]

/-- The increment of a loop, whose test starts at an offset, and the place where a round of the
loop goes on. -/
theorem forIncrement_spec {expression : CompileM Unit} {start next : Nat}
    (parts : ParsesExpressions expression)
    (run : forIncrement expression start c = .ok next c') :
    c.Silently c' (start ≤ c.draft.chunk.code.size → ∃ ts increment bs reach,
      Grammar.Increment ts increment ∧ c.Emits ts bs [] c' ∧
      c'.draft.chunk.code.size = next + reach ∧
      ∀ K : Context, K.Suits c' →
        Encoding.Step K increment (c.draft.chunk.code.size - start) bs reach) := by
  intro quiet
  obtain ⟨nothing, c₁, haccept, hrest⟩ := bind_eq_ok_iff.mp run
  rcases accept_spec haccept with ⟨rfl, hkind, hadvance⟩ | ⟨rfl, -, rfl⟩
  · cases hrest
    obtain ⟨hquiet, hfirst⟩ := advance_spec hadvance (by rw [hkind]; decide) quiet
    refine ⟨hquiet, fun inOrder hstart => ?_⟩
    obtain ⟨first, -⟩ := hfirst inOrder
    refine ⟨_, none, [], _, .none hkind, first, ?_, fun _ _ => .none⟩
    have := first.size
    simp only [List.length_nil] at this
    omega
  · obtain ⟨toBody, c₂, hskip, hrest⟩ := bind_eq_ok_iff.mp hrest
    rw [bind_of_ok (codeSize_apply c₂)] at hrest
    obtain ⟨_, c₃, hexpression, hrest⟩ := bind_eq_ok_iff.mp hrest
    obtain ⟨_, c₄, hpop, hrest⟩ := bind_eq_ok_iff.mp hrest
    obtain ⟨_, c₅, hright, hrest⟩ := bind_eq_ok_iff.mp hrest
    obtain ⟨_, c₆, hloop, hrest⟩ := bind_eq_ok_iff.mp hrest
    obtain ⟨_, c₇, hpatch, hrest⟩ := bind_eq_ok_iff.mp hrest
    cases hrest
    obtain ⟨hquiet, distance, patches⟩ := patchJump_spec hpatch quiet
    obtain ⟨hback, hwrites'⟩ := emitLoop_writes hloop hquiet
    obtain ⟨hquiet, hsixth⟩ := hwrites'.silently hquiet
    obtain ⟨hquiet, hfifth⟩ := expect_spec hright (by decide) hquiet
    obtain ⟨hquiet, hfourth⟩ := (emit_writes hpop).silently hquiet
    obtain ⟨hquiet, hthird⟩ := parts _ _ _ hexpression hquiet
    obtain ⟨hwrites, hplace⟩ := emitJump_writes hskip
    obtain ⟨hquiet, hsecond⟩ := hwrites.silently hquiet
    refine ⟨hquiet, fun inOrder hstart => ?_⟩
    have second := hsecond inOrder
    obtain ⟨ts, e, bs, hparsed, third, hcode⟩ := hthird second.inOrder
    have fourth := hfourth third.inOrder
    obtain ⟨fifth, hkind, -⟩ := hfifth fourth.inOrder
    have sixth := hsixth fifth.inOrder
    have hsize := second.size
    have hsize' := ((third.trans fourth).trans fifth).size
    simp only [List.length_append, OpCode.length_plain, OpCode.length_long, List.length_nil]
      at hsize hsize'
    have hreach : c₅.draft.chunk.code.size + 1 - start + 2 =
        (c₁.draft.chunk.code.size - start) + bs.length + 7 := by omega
    rw [hreach] at hback sixth
    have whole : c₁.Emits (ts ++ [c₄.current]) ([] ++ OpCode.jump.long maxJump ++
        (bs ++ OpCode.pop.plain ++ OpCode.loop.long
          ((c₁.draft.chunk.code.size - start) + bs.length + 7))) [] c₆ := by
      simpa using (((second.trans third).trans fourth).trans fifth).trans sixth
    obtain ⟨rfl, hshort, patched⟩ := whole.patch patches (by simpa using hplace)
    have hlength : ∀ n, (bs ++ OpCode.pop.plain ++ OpCode.loop.long n).length = bs.length + 4 :=
      fun n => by simp only [List.length_append, OpCode.length_plain, OpCode.length_long]
    rw [hlength] at patched
    refine ⟨_, some e, _, bs.length + 4, .some hparsed hkind, patched, ?_, fun K suits => ?_⟩
    · have := patched.size
      simp only [List.length_append, OpCode.length_plain, OpCode.length_long, List.length_nil]
        at this
      omega
    · have suits₆ := patches.suits suits
      have suits₃ := suits₆.earlier third.inOrder ((fourth.trans fifth).trans sixth)
      simpa using Encoding.Step.some (hcode K suits₃) hback

/-- The jump out of a loop is patched behind the loop, if there is one. -/
def loopExit : Option Nat → CompileM Unit
  | none => pure ()
  | some toEnd => do
    patchJump toEnd
    emit .pop

/-- The increment and the body of a loop, with the jump back behind them. -/
theorem forRound_spec {expression statement : CompileM Unit} {start next : Nat}
    {c₁ c₂ : Compiler} {u₁ u₂ : Unit} (parts : ParsesExpressions expression)
    (branches : ParsesStatements statement) (step : forIncrement expression start c = .ok next c₁)
    (inner : statement c₁ = .ok u₁ c₂) (back : emitLoop next c₂ = .ok u₂ c') :
    c.Silently c' (start ≤ c.draft.chunk.code.size → c.draft.Settled →
      ∃ ns ts increment body isOpen middle bs reach,
        Grammar.Increment ns increment ∧ Grammar.Statement isOpen ts body ∧
        (isOpen = true → c'.current.kind ≠ .elseWord) ∧
        c.Emits (ns ++ ts) (middle ++ bs ++ OpCode.loop.long (reach + bs.length + 3)) [] c' ∧
        reach + bs.length + 3 ≤ maxJump ∧
        ∀ K : Context, K.Suits c' →
          Encoding.Step K increment (c.draft.chunk.code.size - start) middle reach ∧
          Encoding.Declaration K body bs []) := by
  intro quiet
  obtain ⟨hback, hwrites⟩ := emitLoop_writes back quiet
  obtain ⟨hquiet, hthird⟩ := hwrites.silently quiet
  obtain ⟨hquiet, hsecond⟩ := branches _ _ _ inner hquiet
  obtain ⟨hquiet, hfirst⟩ := forIncrement_spec parts step hquiet
  refine ⟨hquiet, fun inOrder started settled => ?_⟩
  obtain ⟨ns, increment, middle, reach, hincrement, first, hnext, hstep⟩ := hfirst inOrder started
  obtain ⟨isOpen, ⟨ts, body, bs, hbody, second, hcode⟩, hopen⟩ :=
    hsecond first.inOrder (first.draft.settled settled nofun)
  have third := hthird second.inOrder
  have hreach : c₂.draft.chunk.code.size + 1 - next + 2 = reach + bs.length + 3 := by
    have := second.size
    omega
  rw [hreach] at hback third
  refine ⟨ns, ts, increment, body, isOpen, middle, bs, reach, hincrement, hbody, ?_,
    by simpa using (first.trans second).trans third, hback, fun K suits => ?_⟩
  · rw [(third.still rfl).1]
    exact hopen
  · have suits₂ := suits.earlier second.inOrder third
    exact ⟨hstep K (suits₂.earlier first.inOrder second), hcode K suits₂⟩

/-- The test, the increment and the body of a loop. -/
theorem forLoop_spec {expression statement : CompileM Unit} {toEnd : Option Nat} {next : Nat}
    {c₁ c₂ c₃ c₄ : Compiler} {u₁ u₂ : Unit} (parts : ParsesExpressions expression)
    (branches : ParsesStatements statement) (test : forCondition expression c = .ok toEnd c₁)
    (step : forIncrement expression c.draft.chunk.code.size c₁ = .ok next c₂)
    (inner : statement c₂ = .ok u₁ c₃) (back : emitLoop next c₃ = .ok u₂ c₄)
    (leave : loopExit toEnd c₄ = .ok u c') :
    c.Silently c' (c.draft.Settled → ∃ cs ns ts condition increment body isOpen bs,
      Grammar.Condition cs condition ∧ Grammar.Increment ns increment ∧
      Grammar.Statement isOpen ts body ∧ (isOpen = true → c'.current.kind ≠ .elseWord) ∧
      c.Emits (cs ++ ns ++ ts) bs [] c' ∧
      ∀ K : Context, K.Suits c' →
        Encoding.Declaration K (.loop condition increment body) bs []) := by
  intro quiet
  cases toEnd with
  | none =>
      cases leave
      obtain ⟨hquiet, hround⟩ := forRound_spec parts branches step inner back quiet
      obtain ⟨hquiet, hfirst⟩ := forCondition_spec parts test hquiet
      refine ⟨hquiet, fun inOrder settled => ?_⟩
      obtain ⟨-, cs, hcondition, first⟩ | ⟨_, _, _, habsurd, -⟩ := hfirst inOrder
      · have hsize := first.size
        obtain ⟨ns, ts, increment, body, isOpen, middle, bs, reach, hincrement, hbody, hopen,
          round, hback, hcode⟩ := hround first.inOrder (by omega)
            (first.draft.settled settled nofun)
        refine ⟨cs, ns, ts, none, increment, body, isOpen, _, hcondition, hincrement, hbody, hopen,
          by simpa using first.trans round, fun K suits => ?_⟩
        obtain ⟨hstep, hbody⟩ := hcode K suits
        rw [hsize, List.length_nil, Nat.add_zero, Nat.sub_self] at hstep
        simpa using Encoding.Declaration.loop .none hstep hbody hback
      · cases habsurd
  | some operand =>
      obtain ⟨_, c₅, hpatch, hpop⟩ := bind_eq_ok_iff.mp leave
      obtain ⟨hquiet, hlast⟩ := (emit_writes hpop).silently quiet
      obtain ⟨hquiet, distance, patches⟩ := patchJump_spec hpatch hquiet
      obtain ⟨hquiet, hround⟩ := forRound_spec parts branches step inner back hquiet
      obtain ⟨hquiet, hfirst⟩ := forCondition_spec parts test hquiet
      refine ⟨hquiet, fun inOrder settled => ?_⟩
      obtain ⟨habsurd, -⟩ | ⟨cs, e, es, hplace, hcondition, first, hcode⟩ := hfirst inOrder
      · cases habsurd
      · have hsize := first.size
        obtain ⟨ns, ts, increment, body, isOpen, middle, bs, reach, hincrement, hbody, hopen,
          round, hback, hcode'⟩ := hround first.inOrder (by omega)
            (first.draft.settled settled nofun)
        have front : c.Emits (cs ++ ns ++ ts) (es ++ OpCode.jumpIfFalse.long maxJump ++
            (OpCode.pop.plain ++ middle ++ bs ++ OpCode.loop.long (reach + bs.length + 3)))
            [] c₄ := by
          simpa using first.trans round
        obtain ⟨rfl, hshort, patched⟩ := front.patch patches (Option.some.inj hplace)
        have last := hlast patched.inOrder
        have hlength : (OpCode.pop.plain ++ middle ++ bs ++
            OpCode.loop.long (reach + bs.length + 3)).length =
              1 + middle.length + bs.length + 3 := by
          simp only [List.length_append, OpCode.length_plain, OpCode.length_long]
        rw [hlength] at hshort patched
        refine ⟨cs, ns, ts, some e, increment, body, isOpen, _, hcondition, hincrement, hbody, ?_,
          by simpa using patched.trans last, fun K suits => ?_⟩
        · rw [(last.still rfl).1, patches.current]
          exact hopen
        · have suits₄ := patches.suits (suits.earlier patched.inOrder last)
          obtain ⟨hstep, hbody⟩ := hcode' K suits₄
          have hfront : c₁.draft.chunk.code.size - c.draft.chunk.code.size =
              (es ++ OpCode.jumpIfFalse.long (1 + middle.length + bs.length + 3) ++
                OpCode.pop.plain).length := by
            simp only [List.length_append, OpCode.length_plain, OpCode.length_long] at hsize ⊢
            omega
          rw [hfront] at hstep
          have hvalue := hcode K (suits₄.earlier first.inOrder round)
          simpa using Encoding.Declaration.loop (.some hvalue hshort) hstep hbody hback

/-- A loop with three clauses. -/
theorem forStatement_spec {expression statement : CompileM Unit}
    (parts : ParsesExpressions expression) (branches : ParsesStatements statement)
    (run : forStatement expression statement c = .ok u c') (kind : word.kind = .forWord) :
    c.Silently c' (b.draft.Settled → b.Emits [word] [] [] c → ∃ isOpen, b.States isOpen c') := by
  intro quiet
  rw [forStatement, bind_of_ok (openScope_apply c)] at run
  obtain ⟨_, c₁, hleft, run⟩ := bind_eq_ok_iff.mp run
  obtain ⟨_, c₂, hinitial, run⟩ := bind_eq_ok_iff.mp run
  rw [bind_of_ok (codeSize_apply c₂)] at run
  obtain ⟨toEnd, c₃, htest, run⟩ := bind_eq_ok_iff.mp run
  obtain ⟨next, c₄, hstep, run⟩ := bind_eq_ok_iff.mp run
  obtain ⟨_, c₅, hbody, run⟩ := bind_eq_ok_iff.mp run
  obtain ⟨_, c₆, hback, run⟩ := bind_eq_ok_iff.mp run
  obtain ⟨c₇, hleave, hclose⟩ : ∃ c₇, loopExit toEnd c₆ = .ok () c₇ ∧ closeScope c₇ = .ok u c' := by
    cases toEnd with
    | none => exact ⟨c₆, rfl, run⟩
    | some operand =>
        obtain ⟨_, c₆', hpatch, run⟩ := bind_eq_ok_iff.mp run
        obtain ⟨_, c₇, hpop, hclose⟩ := bind_eq_ok_iff.mp run
        exact ⟨c₇, bind_eq_ok_iff.mpr ⟨_, _, hpatch, hpop⟩, hclose⟩
  have closes := closeScope_closes hclose
  have hquiet : c₇.Quiet := by
    have hrest := closes.rest
    rw [hrest] at quiet
    exact ⟨quiet.alarm, quiet.diagnostics⟩
  obtain ⟨hquiet, hthird⟩ := forLoop_spec parts branches htest hstep hbody hback hleave hquiet
  obtain ⟨hquiet, hsecond⟩ := forInitializer_spec parts hinitial hquiet
  obtain ⟨hquiet, hfirst⟩ := expect_spec hleft (by decide) hquiet
  refine ⟨⟨hquiet.alarm, hquiet.diagnostics⟩, fun inOrder settled before => ?_⟩
  have settled₀ := before.draft.settled settled nofun
  obtain ⟨first, hl, -⟩ := hfirst inOrder.opened
  have settled₁ := first.draft.settled (settled_opened settled₀) (by simp)
  obtain ⟨is, initial, ds, shapes, hparsed, second, ⟨hinner, -⟩, hcode⟩ :=
    hsecond first.inOrder settled₁
  have hdepth : c₁.draft.depth = c.draft.depth + 1 := first.draft.depth
  have settled₂ := second.draft.settled settled₁ fun s hs => ⟨_, Nat.le_refl _, hinner s hs⟩
  obtain ⟨cs, ns, ts, condition, increment, body, isOpen, bs, hcondition, hincrement, hstatement,
    hopen, third, hcode'⟩ := hthird second.inOrder settled₂
  have whole : c.opened.Emits (c.opened.current :: is ++ (cs ++ ns ++ ts)) (ds ++ bs)
      shapes c₇ := by
    simpa using (first.trans second).trans third
  obtain ⟨closing, emits, hsuits⟩ := closes.emits settled₀ whole fun s hs => by
    rw [hinner s hs, hdepth]
  refine ⟨isOpen, ⟨word :: c.opened.current :: is ++ cs ++ ns ++ ts, _, _,
    .for kind hl hparsed hcondition hincrement hstatement,
    by simpa using before.trans emits, fun K suits => ?_⟩, ?_⟩
  · obtain ⟨added, hlength, suits₇, rfl⟩ := hsuits K suits
    have suits₂ := suits₇.earlier second.inOrder third
    have := (hcode K.inside added hlength suits₂).concat (hcode' _ suits₇)
    simpa using Encoding.Declaration.block this
  · rw [closes.rest]
    exact hopen

end Lox.Compiler
