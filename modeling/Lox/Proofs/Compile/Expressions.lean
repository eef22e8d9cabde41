import Lox.Proofs.Compile.Resolution
import Lox.Proofs.Syntax.Grammar

/-!
# Compiled expressions

A run of the expression compiler that reports nothing has read an expression of the grammar
and written the code of its tree. Precedence climbing keeps the following invariant: what has
been read so far is an expression of some level, and the operator ahead binds loosely enough
to take an expression of that level as its left operand.

## Main results

* `operators_spec` — the loop over operators.
* `expressionAt_spec` — any expression.
-/

namespace Lox

namespace Precedence

/-- The tightest operator that may follow an expression of a level. Where operators lean to
the right, an operator of the level itself has been taken by the right operand already. -/
def follow : Precedence → Nat
  | none => 0
  | assignment => 0
  | or => 1
  | and => 2
  | unary => 7
  | p => p.rank

theorem rank_injective {p q : Precedence} (h : p.rank = q.rank) : p = q := by
  cases p <;> cases q <;> first | rfl | exact absurd h (by decide)

/-- The next tighter level is one tighter, unless there is none. -/
theorem rank_tighter {p : Precedence} (h : p ≠ primary) : p.tighter.rank = p.rank + 1 := by
  cases p <;> first | rfl | exact absurd rfl h

/-- What may follow an expression of a level binds at most as tightly as the level. -/
theorem follow_le (p : Precedence) : p.follow ≤ p.rank := by
  cases p <;> decide

/-- Only a tighter expression may stand in front of an `and`. -/
theorem tighter_of_and {p : Precedence} (h : and.rank ≤ p.follow) : equality.rank ≤ p.rank := by
  cases p <;> first | decide | exact absurd h (by decide)

/-- Only a tighter expression may stand in front of an `or`. -/
theorem tighter_of_or {p : Precedence} (h : or.rank ≤ p.follow) : and.rank ≤ p.rank := by
  cases p <;> first | decide | exact absurd h (by decide)

/-- An expression of a level is an expression of all looser levels. -/
theorem expression_of_le {p q : Precedence} {ts : List Token} {e : Expr}
    (parsed : Grammar.Expression q ts e) (looser : p.rank ≤ q.rank) :
    Grammar.Expression p ts e := by
  obtain ⟨n, hn⟩ := Nat.exists_eq_add_of_le looser
  clear looser
  induction n generalizing p with
  | zero => exact rank_injective hn ▸ parsed
  | succ n ih =>
      have hp : p ≠ primary := by
        rintro rfl
        have hq : q.rank ≤ primary.rank := by cases q <;> decide
        omega
      exact .tighter (ih (by rw [rank_tighter hp]; omega))

end Precedence

namespace Compiler

variable {c c' o : Compiler} {u : Unit}

/-- Between two states an expression of a level was read and its code was written. -/
def Expresses (c : Compiler) (level : Precedence) (c' : Compiler) : Prop :=
  ∃ ts e bs, Grammar.Expression level ts e ∧ c.Emits ts bs [] c' ∧
    ∀ K : Context, K.Suits c' → Encoding.Expression K e bs

/-- How tightly the operator ahead binds. -/
def rankAhead (c : Compiler) : Nat := (Precedence.ofToken c.current.kind).rank

/-- A compiler of parts: a silent run reads an expression of the level asked for and stops in
front of an operator that is too loose for it. -/
def Parses (parse : Precedence → CompileM Unit) : Prop :=
  ∀ (level : Precedence) (c : Compiler) (u : Unit) (c' : Compiler),
    1 ≤ level.rank → level.rank ≤ Precedence.unary.rank → parse level c = .ok u c' →
      c.Silently c' (c.Expresses level c' ∧ c'.rankAhead < level.rank)

/-- The end of input and what is no operator bind nothing. -/
theorem operator_of_rank {kind : TokenKind} (h : 1 ≤ (Precedence.ofToken kind).rank) :
    ∃ form, OperatorForm.ofToken? kind = some form := by
  cases kind <;> first | exact ⟨_, rfl⟩ | exact absurd h (by decide)

/-- A token with which an expression can start is not the end of input. -/
theorem kind_of_rank {kind : TokenKind} (h : 1 ≤ (Precedence.ofToken kind).rank) :
    kind ≠ .endOfInput := by
  rintro rfl
  exact absurd h (by decide)

/-! ### Operands -/

/-- Between two states the rest of an expression was read, whose first token is the one
consumed last, and its code was written. -/
def Continues (c : Compiler) (level : Precedence) (c' : Compiler) : Prop :=
  ∃ ts e bs, Grammar.Expression level (c.previous :: ts) e ∧ c.Emits ts bs [] c' ∧
    ∀ K : Context, K.Suits c' → Encoding.Expression K e bs

/-- A variable, or an assignment to it. -/
theorem variableOperand_spec {expression : CompileM Unit} {mayAssign : Bool}
    (value : ∀ c u c', expression c = .ok u c' →
      c.Silently c' (c.Expresses .assignment c' ∧ c'.rankAhead < 1))
    (run : variableOperand expression mayAssign c = .ok u c')
    (kind : c.previous.kind = .identifier) :
    c.Silently c' (c.Continues .primary c' ∨
      mayAssign = true ∧ c.Continues .assignment c' ∧ c'.rankAhead < 1) := by
  intro quiet
  unfold variableOperand at run
  rw [bind_of_ok (get_apply c)] at run
  obtain ⟨r, c₁, hresolve, run⟩ := bind_eq_ok_iff.mp run
  have hread : emitWith r.read.1 r.read.2 c₁ = .ok u c' →
      c.Quiet ∧ (c.InOrder → c.Continues .primary c' ∨
        mayAssign = true ∧ c.Continues .assignment c' ∧ c'.rankAhead < 1) := by
    intro hemit
    obtain ⟨hquiet, hsecond⟩ := (emitWith_writes hemit).silently quiet
    obtain ⟨hquiet, hfirst⟩ := resolve_spec hresolve hquiet
    refine ⟨hquiet, fun inOrder => .inl ?_⟩
    obtain ⟨first, hrefers⟩ := hfirst inOrder
    have second := hsecond first.inOrder
    exact ⟨[], _, _, .variable kind, first.trans second,
      fun K suits => .variable (hrefers K (suits.earlier first.inOrder second))⟩
  cases mayAssign with
  | false => exact hread run
  | true =>
      obtain ⟨_, c₂, hcheck, run⟩ := bind_eq_ok_iff.mp run
      obtain ⟨rfl, rfl⟩ := check_spec hcheck
      simp only [Bool.true_and, decide_eq_true_eq] at run
      split at run
      · rename_i hequal
        obtain ⟨_, c₃, hadvance, run⟩ := bind_eq_ok_iff.mp run
        obtain ⟨_, c₄, hvalue, hemit⟩ := bind_eq_ok_iff.mp run
        obtain ⟨hquiet, hfourth⟩ := (emitWith_writes hemit).silently quiet
        obtain ⟨hquiet, hthird⟩ := value _ _ _ hvalue hquiet
        obtain ⟨hquiet, hsecond⟩ := advance_spec hadvance (by rw [hequal]; decide) hquiet
        obtain ⟨hquiet, hfirst⟩ := resolve_spec hresolve hquiet
        refine ⟨hquiet, fun inOrder => ?_⟩
        obtain ⟨first, hrefers⟩ := hfirst inOrder
        obtain ⟨second, -⟩ := hsecond first.inOrder
        obtain ⟨⟨ts, e, bs, hparsed, third, hcode⟩, hahead⟩ := hthird second.inOrder
        have fourth := hfourth third.inOrder
        refine .inr ⟨rfl, ⟨_, _, bs ++ r.write.1.short r.write.2, .assign kind hequal hparsed, ?_,
          fun K suits => ?_⟩, ?_⟩
        · simpa using ((first.trans second).trans third).trans fourth
        · have suits₄ := suits.earlier third.inOrder fourth
          exact .assign (hrefers K (suits₄.earlier first.inOrder (second.trans third)))
            (hcode K suits₄)
        · rw [rankAhead, (fourth.still rfl).1]
          exact hahead
      · exact hread run

/-- A number. -/
theorem numberOperand_spec (run : numberOperand c = .ok u c') (kind : c.previous.kind = .number) :
    c.Silently c' (c.Continues .primary c') := by
  intro quiet
  unfold numberOperand at run
  rw [bind_of_ok (get_apply c)] at run
  cases hread : Number.read? c.previous.lexeme with
  | none =>
      simp only [hread] at run
      exact absurd quiet (not_quiet_complain run)
  | some x =>
      simp only [hread] at run
      obtain ⟨hquiet, hspec⟩ := emitConstant_spec run quiet
      refine ⟨hquiet, fun inOrder => ?_⟩
      obtain ⟨i, emits, hconstant⟩ := hspec inOrder _ .number (.number x)
      refine ⟨[], _, _, .number kind hread, emits, fun K suits => .number ?_⟩
      obtain ⟨k, hk, holds⟩ := hconstant K suits
      cases holds
      exact hk

/-- A string. -/
theorem stringOperand_spec (run : stringOperand c = .ok u c') (kind : c.previous.kind = .string) :
    c.Silently c' (c.Continues .primary c') := by
  intro quiet
  unfold stringOperand at run
  rw [bind_of_ok (get_apply c)] at run
  cases hread : unquote? c.previous.lexeme with
  | none =>
      simp only [hread] at run
      cases run
  | some text =>
      simp only [hread] at run
      obtain ⟨h, mid, hintern, hemit⟩ := bind_eq_ok_iff.mp run
      obtain ⟨hquiet, hsecond⟩ := emitConstant_spec hemit quiet
      obtain ⟨hquiet, hfirst⟩ := intern_spec hintern hquiet
      refine ⟨hquiet, fun inOrder => ?_⟩
      obtain ⟨first, htext, -, -⟩ := hfirst inOrder
      obtain ⟨i, second, hconstant⟩ := hsecond first.inOrder _ (.text htext) (.text text)
      refine ⟨[], _, _, .text kind hread, first.trans second, fun K suits => .text ?_⟩
      obtain ⟨k, hk, holds⟩ := hconstant K suits
      rwa [holds.eq_text htext] at hk

/-- A word that is a value. -/
theorem literalOperand_spec (run : (literalCode c.previous.kind).forM emit c = .ok u c')
    (form : OperandForm.ofToken? c.previous.kind = some .literal) :
    c.Silently c' (c.Continues .primary c') := by
  intro quiet
  obtain ⟨hquiet, hspec⟩ := (forM_emit_writes (f := id) run).silently quiet
  refine ⟨hquiet, fun inOrder => ?_⟩
  have emits := hspec inOrder
  cases hkind : c.previous.kind <;> rw [hkind] at form emits <;> try cases form
  · exact ⟨[], _, _, .false hkind, emits, fun K _ => .false⟩
  · exact ⟨[], _, _, .nil hkind, emits, fun K _ => .nil⟩
  · exact ⟨[], _, _, .true hkind, emits, fun K _ => .true⟩

/-- The operand whose first token has just been consumed. -/
theorem operand_spec {parse : Precedence → CompileM Unit} {mayAssign : Bool} {form : OperandForm}
    (parts : Parses parse) (run : operand parse mayAssign form c = .ok u c')
    (starts : OperandForm.ofToken? c.previous.kind = some form) :
    c.Silently c' (∃ level, c.Continues level c' ∧ c'.rankAhead ≤ level.follow ∧
      (Precedence.unary.rank ≤ level.rank ∨ mayAssign = true ∧ level = .assignment)) := by
  have hprimary : ∀ c' : Compiler, c'.rankAhead ≤ Precedence.primary.follow := fun c' => by
    unfold rankAhead
    cases c'.current.kind <;> decide
  have primary : c.Silently c' (c.Continues .primary c') →
      c.Silently c' (∃ level, c.Continues level c' ∧ c'.rankAhead ≤ level.follow ∧
        (Precedence.unary.rank ≤ level.rank ∨ mayAssign = true ∧ level = .assignment)) :=
    fun h quiet => (h quiet).imp_right fun hspec inOrder =>
      ⟨.primary, hspec inOrder, hprimary c', .inl (by decide)⟩
  cases form with
  | grouping =>
      apply primary
      intro quiet
      obtain ⟨_, mid, hparse, hexpect⟩ := bind_eq_ok_iff.mp run
      obtain ⟨hquiet, hsecond⟩ := expect_spec hexpect (by decide) quiet
      obtain ⟨hquiet, hfirst⟩ := parts _ _ _ _ (by decide) (by decide) hparse hquiet
      refine ⟨hquiet, fun inOrder => ?_⟩
      obtain ⟨⟨ts, e, bs, hparsed, first, hcode⟩, -⟩ := hfirst inOrder
      obtain ⟨second, hright, -⟩ := hsecond first.inOrder
      have hleft : c.previous.kind = .leftParen := by
        revert starts
        cases c.previous.kind <;> simp [OperandForm.ofToken?]
      exact ⟨ts ++ [mid.current], e, bs, .grouping hleft hparsed hright,
        by simpa using first.trans second,
        fun K suits => hcode K (suits.earlier first.inOrder second)⟩
  | negation =>
      intro quiet
      rw [operand, bind_of_ok (get_apply c)] at run
      obtain ⟨_, mid, hparse, hemit⟩ := bind_eq_ok_iff.mp run
      obtain ⟨hquiet, hsecond⟩ := (forM_emit_writes (f := id) hemit).silently quiet
      obtain ⟨hquiet, hfirst⟩ := parts _ _ _ _ (by decide) (by decide) hparse hquiet
      refine ⟨hquiet, fun inOrder => ⟨.unary, ?_, ?_, .inl (by decide)⟩⟩
      · obtain ⟨⟨ts, e, bs, hparsed, first, hcode⟩, -⟩ := hfirst inOrder
        have second := hsecond first.inOrder
        obtain ⟨op, hop⟩ : ∃ op, UnaryOperator.ofToken? c.previous.kind = some op := by
          revert starts
          cases c.previous.kind <;> simp [OperandForm.ofToken?, UnaryOperator.ofToken?]
        rw [UnaryOperator.unaryCode_eq hop] at second
        exact ⟨ts, _, bs ++ op.code.plain, .unary hop hparsed, by simpa using first.trans second,
          fun K suits => .unary (hcode K (suits.earlier first.inOrder second))⟩
      · obtain ⟨⟨ts, e, bs, hparsed, first, hcode⟩, hahead⟩ := hfirst inOrder
        rw [rankAhead, ((hsecond first.inOrder).still rfl).1]
        exact Nat.le_of_lt_succ hahead
  | «variable» =>
      have hkind : c.previous.kind = .identifier := by
        revert starts
        cases c.previous.kind <;> simp [OperandForm.ofToken?]
      intro quiet
      obtain ⟨hquiet, hspec⟩ := variableOperand_spec
        (fun c u c' h => parts .assignment c u c' (by decide) (by decide) h) run hkind quiet
      refine ⟨hquiet, fun inOrder => ?_⟩
      rcases hspec inOrder with h | ⟨hassign, h, hahead⟩
      · exact ⟨.primary, h, hprimary c', .inl (by decide)⟩
      · exact ⟨.assignment, h, Nat.le_of_lt_succ hahead, .inr ⟨hassign, rfl⟩⟩
  | string =>
      refine primary (stringOperand_spec run ?_)
      revert starts
      cases c.previous.kind <;> simp [OperandForm.ofToken?]
  | number =>
      refine primary (numberOperand_spec run ?_)
      revert starts
      cases c.previous.kind <;> simp [OperandForm.ofToken?]
  | literal =>
      rw [operand, bind_of_ok (get_apply c)] at run
      exact primary (literalOperand_spec run starts)

/-! ### Operators -/

/-- Between two states arguments were read, at least one, and their code was written. There are
`count` arguments in front of them and `n` in all. -/
def Passes (c : Compiler) (count n : Nat) (c' : Compiler) : Prop :=
  ∃ ts e others bs, Grammar.Arguments ts (e :: others) ∧ n = count + (e :: others).length ∧
    n ≤ Draft.maxArity ∧ c.Emits ts bs [] c' ∧
      ∀ K : Context, K.Suits c' → Encoding.Arguments K (e :: others) bs

/-- The arguments of a call after the first `count`. -/
theorem arguments_spec {expression : CompileM Unit} {steps count n : Nat}
    (part : ∀ c u c', expression c = .ok u c' →
      c.Silently c' (c.Expresses .assignment c' ∧ c'.rankAhead < 1))
    (run : arguments expression steps count c = .ok n c') :
    c.Silently c' (count ≤ Draft.maxArity → c.Passes count n c') := by
  intro quiet
  induction steps generalizing c count with
  | zero => cases run
  | succ steps ih =>
      obtain ⟨_, c₁, hpart, run⟩ := bind_eq_ok_iff.mp run
      -- what follows the first argument stands in both branches of the check
      have tail : ∀ c₂, (accept .comma >>= fun more =>
          if more = true then arguments expression steps (count + 1) else pure (count + 1)) c₂ =
            .ok n c' → c₂.Quiet ∧ (c₂.InOrder → count < Draft.maxArity →
              (n = count + 1 ∧ c' = c₂) ∨ ∃ mid, c₂.current.kind = .comma ∧
                c₂.Emits [c₂.current] [] [] mid ∧ mid.Passes (count + 1) n c') := by
        intro c₂ htail
        obtain ⟨more, c₃, haccept, hrest⟩ := bind_eq_ok_iff.mp htail
        rcases accept_spec haccept with ⟨rfl, hkind, hadvance⟩ | ⟨rfl, -, rfl⟩
        · obtain ⟨hquiet, hpasses⟩ := ih hrest
          obtain ⟨hquiet, hcomma⟩ := advance_spec hadvance (by rw [hkind]; decide) hquiet
          refine ⟨hquiet, fun inOrder hbound => .inr ⟨c₃, hkind, ?_⟩⟩
          have comma := (hcomma inOrder).1
          exact ⟨comma, hpasses comma.inOrder hbound⟩
        · cases hrest
          exact ⟨quiet, fun _ _ => .inl ⟨rfl, rfl⟩⟩
      split at run
      · obtain ⟨_, c₂, hcomplain, run⟩ := bind_eq_ok_iff.mp run
        exact absurd (tail c₂ run).1 (not_quiet_complain hcomplain)
      · rename_i hcount
        obtain ⟨hquiet, htail⟩ := tail c₁ run
        obtain ⟨hquiet, hexpression⟩ := part _ _ _ hpart hquiet
        refine ⟨hquiet, fun inOrder hbound => ?_⟩
        have hlt : count < Draft.maxArity := by omega
        obtain ⟨⟨ts, e, bs, hparsed, first, hcode⟩, -⟩ := hexpression inOrder
        rcases htail first.inOrder hlt with ⟨rfl, rfl⟩ | ⟨mid, hkind, comma, hpasses⟩
        · refine ⟨ts, e, [], bs, .last hparsed, by simp, hlt, first, fun K suits => ?_⟩
          simpa using Encoding.Arguments.cons (hcode K suits) .nil
        · obtain ⟨us, next, others, ds, hothers, rfl, hn, second, hcode'⟩ := hpasses
          refine ⟨_, e, next :: others, bs ++ ds, .more hparsed hkind hothers, ?_, hn, ?_,
            fun K suits => ?_⟩
          · simp only [List.length_cons]
            omega
          · simpa using (first.trans comma).trans second
          · exact .cons (hcode K (suits.earlier first.inOrder (comma.trans second)))
              (hcode' K suits)

/-- A call. -/
theorem callOperator_spec {expression : CompileM Unit} {steps : Nat}
    (part : ∀ c u c', expression c = .ok u c' →
      c.Silently c' (c.Expresses .assignment c' ∧ c'.rankAhead < 1))
    (run : callOperator expression steps c = .ok u c') :
    c.Silently c' (∃ ts arguments bs right, Grammar.Arguments ts arguments ∧
      right.kind = .rightParen ∧ arguments.length ≤ Draft.maxArity ∧
      c.Emits (ts ++ [right]) (bs ++ OpCode.call.short (UInt8.ofNat arguments.length)) [] c' ∧
        ∀ K : Context, K.Suits c' → Encoding.Arguments K arguments bs) := by
  intro quiet
  obtain ⟨_, c₁, hcheck, run⟩ := bind_eq_ok_iff.mp run
  obtain ⟨rfl, rfl⟩ := check_spec hcheck
  split at run
  · rw [bind_of_ok (pure_apply 0 _)] at run
    obtain ⟨_, c₂, hexpect, hemit⟩ := bind_eq_ok_iff.mp run
    obtain ⟨hquiet, hsecond⟩ := (emitWith_writes hemit).silently quiet
    obtain ⟨hquiet, hfirst⟩ := expect_spec hexpect (by decide) hquiet
    refine ⟨hquiet, fun inOrder => ?_⟩
    obtain ⟨first, hright, -⟩ := hfirst inOrder
    exact ⟨[], [], [], _, .none, hright, by simp, first.trans (hsecond first.inOrder),
      fun _ _ => .nil⟩
  · obtain ⟨n, c₂, hcount, run⟩ := bind_eq_ok_iff.mp run
    obtain ⟨_, c₃, hexpect, hemit⟩ := bind_eq_ok_iff.mp run
    obtain ⟨hquiet, hthird⟩ := (emitWith_writes hemit).silently quiet
    obtain ⟨hquiet, hsecond⟩ := expect_spec hexpect (by decide) hquiet
    obtain ⟨hquiet, hfirst⟩ := arguments_spec part hcount hquiet
    refine ⟨hquiet, fun inOrder => ?_⟩
    obtain ⟨ts, e, others, bs, hparsed, rfl, hn, first, hcode⟩ := hfirst inOrder (by simp)
    obtain ⟨second, hright, -⟩ := hsecond first.inOrder
    have third := hthird second.inOrder
    rw [Nat.zero_add] at hn third
    rw [Nat.min_eq_left hn] at third
    refine ⟨ts, e :: others, bs, _, hparsed, hright, hn, ?_, fun K suits => ?_⟩
    · simpa using (first.trans second).trans third
    · exact hcode K (suits.earlier first.inOrder (second.trans third))

/-- A conjunction, whose left operand has been read since the state `o`. -/
theorem andOperator_spec {parse : Precedence → CompileM Unit} (parts : Parses parse)
    (run : andOperator parse c = .ok u c') :
    c.Silently c' (∀ ts bs, o.Emits ts bs [] c → ∃ us e ds, Grammar.Expression .and us e ∧
      c'.rankAhead < Precedence.and.rank ∧ ds.length + 1 ≤ maxJump ∧
      o.Emits (ts ++ us) (bs ++ OpCode.jumpIfFalse.long (ds.length + 1) ++ OpCode.pop.plain ++ ds)
        [] c' ∧
      (∀ K : Context, K.Suits c' → K.Suits c ∧ Encoding.Expression K e ds)) := by
  intro quiet
  obtain ⟨operand, c₁, hjump, run⟩ := bind_eq_ok_iff.mp run
  obtain ⟨_, c₂, hpop, run⟩ := bind_eq_ok_iff.mp run
  obtain ⟨_, c₃, hparse, hpatch⟩ := bind_eq_ok_iff.mp run
  obtain ⟨hquiet, distance, patches⟩ := patchJump_spec hpatch quiet
  obtain ⟨hquiet, hthird⟩ := parts _ _ _ _ (by decide) (by decide) hparse hquiet
  obtain ⟨hwrites, hplace⟩ := emitJump_writes hjump
  obtain ⟨hquiet, hfirst⟩ := (hwrites.trans (emit_writes hpop)).silently hquiet
  refine ⟨hquiet, fun inOrder ts bs emits => ?_⟩
  have first := hfirst inOrder
  obtain ⟨⟨us, e, ds, hparsed, third, hcode⟩, hahead⟩ := hthird first.inOrder
  have whole : o.Emits (ts ++ us)
    (bs ++ OpCode.jumpIfFalse.long maxJump ++ (OpCode.pop.plain ++ ds))
      [] c₃ := by simpa using (emits.trans first).trans third
  obtain ⟨rfl, hshort, patched⟩ := whole.patch patches (by rw [hplace, emits.size])
  simp only [List.length_append, OpCode.length_plain, Nat.add_comm 1] at hshort patched
  refine ⟨us, e, ds, hparsed, ?_, hshort, by simpa using patched, fun K suits => ?_⟩
  · rw [rankAhead, patches.current]
    exact hahead
  · have suits₃ := patches.suits suits
    exact ⟨suits₃.earlier inOrder (first.trans third), hcode K suits₃⟩

/-- A disjunction, whose left operand has been read since the state `o`. -/
theorem orOperator_spec {parse : Precedence → CompileM Unit} (parts : Parses parse)
    (run : orOperator parse c = .ok u c') :
    c.Silently c' (∀ ts bs, o.Emits ts bs [] c → ∃ us e ds, Grammar.Expression .or us e ∧
      c'.rankAhead < Precedence.or.rank ∧ ds.length + 1 ≤ maxJump ∧
      o.Emits (ts ++ us) (bs ++ OpCode.jumpIfFalse.long 3 ++ OpCode.jump.long (ds.length + 1) ++
        OpCode.pop.plain ++ ds) [] c' ∧
      (∀ K : Context, K.Suits c' → K.Suits c ∧ Encoding.Expression K e ds)) := by
  intro quiet
  obtain ⟨toRight, c₁, hskip, run⟩ := bind_eq_ok_iff.mp run
  obtain ⟨toEnd, c₂, hjump, run⟩ := bind_eq_ok_iff.mp run
  obtain ⟨_, c₃, hpatch, run⟩ := bind_eq_ok_iff.mp run
  obtain ⟨_, c₄, hpop, run⟩ := bind_eq_ok_iff.mp run
  obtain ⟨_, c₅, hparse, hpatch'⟩ := bind_eq_ok_iff.mp run
  obtain ⟨hquiet, distance', patches'⟩ := patchJump_spec hpatch' quiet
  obtain ⟨hquiet, hfifth⟩ := parts _ _ _ _ (by decide) (by decide) hparse hquiet
  obtain ⟨hquiet, hfourth⟩ := (emit_writes hpop).silently hquiet
  obtain ⟨hquiet, distance, patches⟩ := patchJump_spec hpatch hquiet
  obtain ⟨hwrites, hplace⟩ := emitJump_writes hskip
  obtain ⟨hwrites', hplace'⟩ := emitJump_writes hjump
  obtain ⟨hquiet, hfirst⟩ := (hwrites.trans hwrites').silently hquiet
  refine ⟨hquiet, fun inOrder ts bs emits => ?_⟩
  have first := hfirst inOrder
  have front : o.Emits ts (bs ++ OpCode.jumpIfFalse.long maxJump ++ OpCode.jump.long maxJump)
    [] c₂ := by
    simpa using emits.trans first
  obtain ⟨rfl, -, patched⟩ := front.patch patches (by rw [hplace, emits.size])
  have fourth := hfourth patched.inOrder
  obtain ⟨⟨us, e, ds, hparsed, fifth, hcode⟩, hahead⟩ := hfifth fourth.inOrder
  have whole : o.Emits (ts ++ us) (bs ++ OpCode.jumpIfFalse.long 3 ++ OpCode.jump.long maxJump ++
      (OpCode.pop.plain ++ ds)) [] c₅ := by simpa using (patched.trans fourth).trans fifth
  have hsize := hwrites.size
  have hsize' := emits.size
  obtain ⟨rfl, hshort, patched'⟩ := whole.patch patches' (by
    simp only [List.length_append, OpCode.length_long] at hsize ⊢
    omega)
  simp only [List.length_append, OpCode.length_plain, Nat.add_comm 1] at hshort patched'
  refine ⟨us, e, ds, hparsed, ?_, hshort, by simpa using patched', fun K suits => ?_⟩
  · rw [rankAhead, patches'.current]
    exact hahead
  · have suits₅ := patches'.suits suits
    have suits₃ := suits₅.earlier patched.inOrder (fourth.trans fifth)
    exact ⟨(patches.suits suits₃).earlier inOrder first, hcode K suits₅⟩

/-- An operator between two operands that are both evaluated, whose left operand has been read
since the state `o`. -/
theorem binaryOperator_spec {parse : Precedence → CompileM Unit} {op : BinaryOperator}
    (parts : Parses parse)
    (run : (do parse op.precedence.tighter; op.code.forM emit) c = .ok u c') :
    c.Silently c' (∀ ts bs, o.Emits ts bs [] c → ∃ us e ds,
      Grammar.Expression op.precedence.tighter us e ∧
      c'.rankAhead < op.precedence.tighter.rank ∧
      o.Emits (ts ++ us) (bs ++ ds ++ op.code.flatMap OpCode.plain) [] c' ∧
      (∀ K : Context, K.Suits c' → K.Suits c ∧ Encoding.Expression K e ds)) := by
  intro quiet
  obtain ⟨_, c₁, hparse, hemit⟩ := bind_eq_ok_iff.mp run
  obtain ⟨hquiet, hsecond⟩ := (forM_emit_writes (f := id) hemit).silently quiet
  obtain ⟨hquiet, hfirst⟩ := parts _ _ _ _ (by cases op <;> decide) (by cases op <;> decide)
    hparse hquiet
  refine ⟨hquiet, fun inOrder ts bs emits => ?_⟩
  obtain ⟨⟨us, e, ds, hparsed, first, hcode⟩, hahead⟩ := hfirst inOrder
  have second := hsecond first.inOrder
  refine ⟨us, e, ds, hparsed, ?_, by simpa using (emits.trans first).trans second,
    fun K suits => ?_⟩
  · rw [rankAhead, (second.still rfl).1]
    exact hahead
  · exact ⟨suits.earlier inOrder (first.trans second), hcode K (suits.earlier first.inOrder second)⟩

/-- The operator whose token has just been consumed, in the state `b`, and whose left operand
has been read since the state `o`. -/
theorem operator_spec {parse : Precedence → CompileM Unit} {steps : Nat} {form : OperatorForm}
    {b : Compiler} (parts : Parses parse) (run : operator parse steps form c = .ok u c')
    (starts : OperatorForm.ofToken? c.previous.kind = some form) :
    c.Silently c' (∀ level, b.Emits [c.previous] [] [] c → o.Expresses level b →
      (Precedence.ofToken c.previous.kind).rank ≤ level.follow →
        o.Expresses (Precedence.ofToken c.previous.kind) c' ∧
          c'.rankAhead ≤ (Precedence.ofToken c.previous.kind).follow) := by
  intro quiet
  cases form with
  | call =>
      have hkind : c.previous.kind = .leftParen := by
        revert starts
        cases c.previous.kind <;> simp [OperatorForm.ofToken?]
      obtain ⟨hquiet, hspec⟩ := callOperator_spec
        (fun c u c' h => parts .assignment c u c' (by decide) (by decide) h) run quiet
      refine ⟨hquiet, fun inOrder level token left follows => ?_⟩
      obtain ⟨ts, e, bs, hparsed, emits, hcode⟩ := left
      obtain ⟨us, arguments, ds, right, harguments, hright, hcount, second, hcode'⟩ := hspec inOrder
      rw [hkind] at follows ⊢
      refine ⟨⟨ts ++ c.previous :: us ++ [right], .call e arguments,
        bs ++ ds ++ OpCode.call.short (UInt8.ofNat arguments.length),
        .call ?_ hkind harguments hright, ?_, fun K suits => ?_⟩, ?_⟩
      · exact Precedence.expression_of_le hparsed (follows.trans (Precedence.follow_le level))
      · simpa using (emits.trans token).trans second
      · have suits₁ := suits.earlier inOrder second
        exact .call (hcode K (suits₁.earlier emits.inOrder token)) (hcode' K suits) hcount
      · unfold rankAhead
        cases c'.current.kind <;> decide
  | binary =>
      obtain ⟨op, hop⟩ := BinaryOperator.ofToken?_isSome starts
      rw [operator, bind_of_ok (get_apply c), BinaryOperator.precedence_eq hop,
        BinaryOperator.binaryCode_eq hop] at run
      obtain ⟨hquiet, hspec⟩ := binaryOperator_spec (o := o) parts run quiet
      refine ⟨hquiet, fun inOrder level token left follows => ?_⟩
      obtain ⟨ts, e, bs, hparsed, emits, hcode⟩ := left
      obtain ⟨us, right, ds, hright, hahead, whole, hcode'⟩ := hspec inOrder _ _ (emits.trans token)
      rw [BinaryOperator.precedence_eq hop] at follows ⊢
      refine ⟨⟨ts ++ c.previous :: us, .binary op e right,
        bs ++ ds ++ op.code.flatMap OpCode.plain, .binary ?_ hop hright, by simpa using whole,
        fun K suits => ?_⟩, ?_⟩
      · exact Precedence.expression_of_le hparsed (follows.trans (Precedence.follow_le level))
      · obtain ⟨suits₁, hright⟩ := hcode' K suits
        exact .binary (hcode K (suits₁.earlier emits.inOrder token)) hright
      · cases op <;> exact Nat.le_of_lt_succ hahead
  | and =>
      have hkind : c.previous.kind = .andWord := by
        revert starts
        cases c.previous.kind <;> simp [OperatorForm.ofToken?]
      obtain ⟨hquiet, hspec⟩ := andOperator_spec (o := o) parts run quiet
      refine ⟨hquiet, fun inOrder level token left follows => ?_⟩
      obtain ⟨ts, e, bs, hparsed, emits, hcode⟩ := left
      obtain ⟨us, right, ds, hright, hahead, hshort, whole, hcode'⟩ :=
        hspec inOrder _ _ (emits.trans token)
      rw [hkind] at follows ⊢
      refine ⟨⟨ts ++ c.previous :: us, .both e right,
        bs ++ OpCode.jumpIfFalse.long (ds.length + 1) ++ OpCode.pop.plain ++ ds,
        .both ?_ hkind hright, by simpa using whole, fun K suits => ?_⟩,
        Nat.le_of_lt_succ hahead⟩
      · exact Precedence.expression_of_le hparsed (Precedence.tighter_of_and follows)
      · obtain ⟨suits₁, hright⟩ := hcode' K suits
        exact .both (hcode K (suits₁.earlier emits.inOrder token)) hright hshort
  | or =>
      have hkind : c.previous.kind = .orWord := by
        revert starts
        cases c.previous.kind <;> simp [OperatorForm.ofToken?]
      obtain ⟨hquiet, hspec⟩ := orOperator_spec (o := o) parts run quiet
      refine ⟨hquiet, fun inOrder level token left follows => ?_⟩
      obtain ⟨ts, e, bs, hparsed, emits, hcode⟩ := left
      obtain ⟨us, right, ds, hright, hahead, hshort, whole, hcode'⟩ :=
        hspec inOrder _ _ (emits.trans token)
      rw [hkind] at follows ⊢
      refine ⟨⟨ts ++ c.previous :: us, .either e right,
        bs ++ OpCode.jumpIfFalse.long 3 ++ OpCode.jump.long (ds.length + 1) ++
          OpCode.pop.plain ++ ds,
        .either ?_ hkind hright, by simpa using whole, fun K suits => ?_⟩,
        Nat.le_of_lt_succ hahead⟩
      · exact Precedence.expression_of_le hparsed (Precedence.tighter_of_or follows)
      · obtain ⟨suits₁, hright⟩ := hcode' K suits
        exact .either (hcode K (suits₁.earlier emits.inOrder token)) hright hshort

/-- The loop over operators. What has been read since the state `o` is an expression of a level
that the operator ahead may follow. -/
theorem operators_spec {parse : Precedence → CompileM Unit} {least : Precedence} {steps : Nat}
    (parts : Parses parse) (real : 1 ≤ least.rank)
    (run : operators parse least steps c = .ok u c') :
    c.Silently c' (∀ level, o.Expresses level c → c.rankAhead ≤ level.follow →
      least.rank ≤ level.rank → o.Expresses least c' ∧ c'.rankAhead < least.rank) := by
  intro quiet
  induction steps generalizing c with
  | zero => cases run
  | succ steps ih =>
      rw [operators, bind_of_ok (get_apply c)] at run
      split at run
      · rename_i hleast
        have hrank : 1 ≤ (Precedence.ofToken c.current.kind).rank := real.trans hleast
        obtain ⟨form, hform⟩ := operator_of_rank hrank
        obtain ⟨_, c₁, hadvance, run⟩ := bind_eq_ok_iff.mp run
        rw [bind_of_ok (get_apply c₁)] at run
        have hprevious := advance_previous hadvance
        rw [hprevious, hform] at run
        obtain ⟨_, c₂, hoperator, hrest⟩ := bind_eq_ok_iff.mp run
        obtain ⟨hquiet, hloop⟩ := ih hrest
        obtain ⟨hquiet, hspec⟩ := operator_spec (o := o) (b := c) parts hoperator
          (by rw [hprevious]; exact hform) hquiet
        obtain ⟨hquiet, htoken⟩ := advance_spec hadvance (kind_of_rank hrank) hquiet
        refine ⟨hquiet, fun inOrder level read hfollows hlevel => ?_⟩
        obtain ⟨token, -⟩ := htoken inOrder
        rw [hprevious] at hspec
        obtain ⟨read', hfollows'⟩ := hspec token.inOrder level token read hfollows
        obtain ⟨_, _, _, -, emits, -⟩ := id read'
        exact hloop emits.inOrder _ read' hfollows' hleast
      · rename_i hleast
        cases run
        refine ⟨quiet, fun inOrder level read _ hlevel => ⟨?_, Nat.lt_of_not_le hleast⟩⟩
        obtain ⟨ts, e, bs, hparsed, emits, hcode⟩ := read
        exact ⟨ts, e, bs, Precedence.expression_of_le hparsed hlevel, emits, hcode⟩

/-! ### Any expression -/

/-- An expression whose operators bind at least as tightly as `least`. -/
theorem expressionWith_spec {parse : Precedence → CompileM Unit} {least : Precedence}
    {steps : Nat} (parts : Parses parse) (real : 1 ≤ least.rank)
    (loose : least.rank ≤ Precedence.unary.rank)
    (run : expressionWith parse steps least c = .ok u c') :
    c.Silently c' (c.Expresses least c' ∧ c'.rankAhead < least.rank) := by
  intro quiet
  obtain ⟨_, c₁, hadvance, run⟩ := bind_eq_ok_iff.mp run
  rw [bind_of_ok (get_apply c₁)] at run
  have hprevious := advance_previous hadvance
  cases hform : OperandForm.ofToken? c₁.previous.kind with
  | none =>
      rw [hform] at run
      exact absurd quiet (not_quiet_complain run)
  | some form =>
      rw [hform] at run
      obtain ⟨_, c₂, hoperand, run⟩ := bind_eq_ok_iff.mp run
      obtain ⟨_, c₃, hoperators, run⟩ := bind_eq_ok_iff.mp run
      have hsame : c' = c₃ := by
        obtain ⟨_, c₄, hcheck, run⟩ := bind_eq_ok_iff.mp run
        obtain ⟨rfl, rfl⟩ := check_spec hcheck
        split at run
        · obtain ⟨_, c₅, -, hcomplain⟩ := bind_eq_ok_iff.mp run
          exact absurd quiet (not_quiet_complain hcomplain)
        · cases run
          rfl
      subst hsame
      obtain ⟨hquiet, hloop⟩ := operators_spec (o := c) parts real hoperators quiet
      obtain ⟨hquiet, hspec⟩ := operand_spec parts hoperand hform hquiet
      obtain ⟨hquiet, htoken⟩ := advance_spec hadvance (by
        rw [← hprevious]
        rintro hkind
        rw [hkind] at hform
        cases hform) hquiet
      refine ⟨hquiet, fun inOrder => ?_⟩
      obtain ⟨token, -⟩ := htoken inOrder
      obtain ⟨level, ⟨ts, e, bs, hparsed, emits, hcode⟩, hfollows, hlevel⟩ := hspec token.inOrder
      rw [hprevious] at hparsed
      have read : c.Expresses level c₂ := ⟨_, e, bs, hparsed, token.trans emits, hcode⟩
      refine hloop emits.inOrder level read hfollows ?_
      rcases hlevel with hlevel | ⟨hassign, rfl⟩
      · exact loose.trans hlevel
      · exact of_decide_eq_true hassign

/-- Any expression whose operators bind at least as tightly as asked for. -/
theorem expressionAt_spec (steps : Nat) : Parses (expressionAt steps) := by
  induction steps with
  | zero => exact fun _ _ _ _ _ _ run => by cases run
  | succ steps ih => exact fun _ _ _ _ real loose run => expressionWith_spec ih real loose run

/-- Any expression. -/
theorem expression_spec {steps : Nat} (run : expression steps c = .ok u c') :
    c.Silently c' (c.Expresses .assignment c' ∧ c'.rankAhead < 1) :=
  expressionAt_spec steps _ _ _ _ (by decide) (by decide) run

end Compiler

end Lox
