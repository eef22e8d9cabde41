import Lox.Proofs.Compile.Acceptance.Expressions
import Lox.Proofs.Compile.Lawful.Steps

/-!
# Expressions that keep the rules

Precedence climbing in front of an expression of the grammar comes back to its loop over operators
right behind it, and nothing has been reported if the expression keeps the rules. By then its
constants have been added and its code has been written, so what the jumps around it have to skip is
known.

## Main definitions

* `Compiler.Fine` — an expression that keeps the rules, and whose names may be mentioned.
* `Compiler.Clears` — an expression behind which every run comes by the loop over operators.

## Main results

* `expression_clears`, `expression_spends` — any expression.
-/

namespace Lox.Compiler

open Grammar

variable {W : List (List (Nat × Nat))} {P : List Draft} {c c' : Compiler} {n room limit k m : Nat}
  {t : Token} {ts us rest : List Token} {next : TokenKind → Prop} {level least : Precedence}
  {e : Expr} {es : List Expr}

/-- An expression keeps the rules, and its names may be mentioned. -/
structure Fine (W : List (List (Nat × Nat))) (P : List Draft) (e : Expr) : Prop where
  lawful : e.Lawful
  usable : e.Mentions (Usable W P)

/-- Expressions that keep the rules, and whose names may be mentioned. -/
structure FineAll (W : List (List (Nat × Nat))) (P : List Draft) (es : List Expr) : Prop where
  lawful : Expr.LawfulAll es
  usable : Expr.MentionsAll (Usable W P) es

/-- The constants that an expression takes at a place. -/
abbrev constantsAt (P : List Draft) (e : Expr) : Nat := e.constants (Draft.scopesOf P)

/-- A run that comes by the loop over operators in front of given tokens, when at most so much has
been written. -/
def Returns (W : List (List (Nat × Nat))) (P : List Draft) (room n : Nat) (least : Precedence)
    (rest : List Token) (limit : Nat) (c' : Compiler) : Prop :=
  ∃ mid steps, mid.Stands W P room rest ∧ mid.written ≤ limit ∧ onward n least steps mid = .ok () c'

/-- Behind the tokens of an expression every run comes by the loop over operators, if it takes the
operators of the level and none of them has to take what stands behind. -/
def Clears (W : List (List (Nat × Nat))) (P : List Draft) (level : Precedence) (ts : List Token)
    (e : Expr) : Prop :=
  ∀ ⦃n least room rest c c'⦄, 1 ≤ least.rank → least.rank ≤ level.rank →
    c.Stands W P (constantsAt P e + room) (ts ++ rest) →
    (Precedence.ofToken (upcoming rest)).rank ≤ level.follow →
    (least.rank ≤ 1 → upcoming rest ≠ .equal) → expressionAt (n + 1) least c = .ok () c' →
    Returns W P room n least rest (c.written + e.size) c'

/-! ### Coming by the loop -/

/-- The first operand of an expression. -/
theorem returns_of_operand {form : OperandForm}
    (starts : OperandForm.ofToken? t.kind = some form)
    (spends : ∀ ⦃c c' : Compiler⦄, c.previous = t → c.Stands W P (k + room) (ts ++ rest) →
      operand (expressionAt n) (decide (least.rank ≤ Precedence.assignment.rank)) form c =
        .ok () c' →
      c'.Stands W P room rest ∧ c'.written ≤ c.written + m)
    (stands : c.Stands W P (k + room) (t :: ts ++ rest))
    (run : expressionAt (n + 1) least c = .ok () c') :
    Returns W P room n least rest (c.written + m) c' := by
  obtain ⟨d, hadvance, hstands, hprevious, hwritten⟩ := stands.advance
  rw [expressionAt, expressionWith, bind_of_ok hadvance, bind_of_ok (get_apply d)] at run
  rw [hprevious, starts] at run
  obtain ⟨_, mid, hoperand, honward⟩ := bind_eq_ok_iff.mp run
  obtain ⟨hmid, hmost⟩ := spends hprevious hstands hoperand
  exact ⟨mid, n + 1, hmid, hwritten ▸ hmost, honward⟩

/-- One more operator. -/
theorem Returns.operator {form : OperatorForm}
    (returns : Returns W P (k + room) n least (t :: ts ++ rest) limit c')
    (binds : least.rank ≤ (Precedence.ofToken t.kind).rank)
    (goes : OperatorForm.ofToken? t.kind = some form)
    (spends : ∀ ⦃steps c c'⦄, c.previous = t → c.Stands W P (k + room) (ts ++ rest) →
      operator (expressionAt n) steps form c = .ok () c' →
      c'.Stands W P room rest ∧ c'.written ≤ c.written + m) :
    Returns W P room n least rest (limit + m) c' := by
  obtain ⟨mid, steps, hstands, hlimit, hrun⟩ := returns
  cases steps with
  | zero => cases hrun
  | succ steps =>
      obtain ⟨d, hadvance, hahead, hprevious, hwritten⟩ := hstands.advance
      have hkind : mid.current.kind = t.kind := hstands.current_cons
      obtain ⟨_, o, hoperators, hend⟩ := bind_eq_ok_iff.mp hrun
      rw [operators, bind_of_ok (get_apply mid), hkind, if_pos binds, bind_of_ok hadvance,
        bind_of_ok (get_apply d), hprevious, goes] at hoperators
      obtain ⟨_, e, hoperator, hmore⟩ := bind_eq_ok_iff.mp hoperators
      have honward : onward n least steps e = .ok () c' := by
        rw [onward, bind_of_ok hmore]
        exact hend
      obtain ⟨hlast, hmost⟩ := spends hprevious hahead hoperator
      exact ⟨e, steps, hlast, by omega, honward⟩

/-- An expression whose loop takes no operator. -/
theorem Returns.ends (returns : Returns W P room n least rest limit c')
    (stops : Stops least (upcoming rest)) : c'.Stands W P room rest ∧ c'.written ≤ limit := by
  obtain ⟨mid, steps, hstands, hlimit, hrun⟩ := returns
  cases steps with
  | zero => cases hrun
  | succ steps =>
      have hloose : ¬ least.rank ≤ (Precedence.ofToken mid.current.kind).rank := by
        rw [hstands.current]
        exact Nat.not_le_of_lt stops.1
      have hequal : (decide (least.rank ≤ Precedence.assignment.rank) &&
          decide (mid.current.kind = .equal)) = false := by
        rw [hstands.current]
        by_cases hassign : least.rank ≤ Precedence.assignment.rank
        · simp [stops.2 hassign]
        · simp [hassign]
      have hoperators : operators (expressionAt n) least (steps + 1) mid = .ok () mid := by
        rw [operators, bind_of_ok (get_apply mid), if_neg hloose]
        rfl
      rw [onward, bind_of_ok hoperators, bind_of_ok (check_apply _ mid), hequal] at hrun
      cases hrun
      exact ⟨hstands, hlimit⟩

/-- A whole expression. -/
theorem Clears.spends (clears : Clears W P level ts e) (tight : 1 ≤ level.rank) (n : Nat) :
    Spends W P P ts (Stops level) (constantsAt P e) e.size (expressionAt n level) := by
  intro room rest c _ c' stands stops run
  cases n with
  | zero => cases run
  | succ n =>
      exact (clears tight (Nat.le_refl _) stands (rank_le_follow stops) stops.2 run).ends stops

/-! ### Operands -/

/-- An operand that is one token. -/
theorem clears_alone {form : OperandForm} (starts : OperandForm.ofToken? t.kind = some form)
    (spends : ∀ ⦃n mayAssign room rest c c'⦄, c.previous = t →
      c.Stands W P (constantsAt P e + room) rest →
      operand (expressionAt n) mayAssign form c = .ok () c' →
      c'.Stands W P room rest ∧ c'.written ≤ c.written + e.size) :
    Clears W P .primary [t] e :=
  fun _ _ _ _ _ _ _ _ stands _ _ run =>
    returns_of_operand starts (fun _ _ hprevious hstands hrun => spends hprevious hstands hrun)
      stands run

theorem clears_number {x : Float} (kind : t.kind = .number)
    (value : Number.read? t.lexeme = some x) : Clears W P .primary [t] (.literal (.number x)) := by
  refine clears_alone (by rw [kind]; rfl) fun n mayAssign room rest c c' hprevious stands run => ?_
  rw [operand, numberOperand, bind_of_ok (get_apply c), hprevious, value] at run
  exact emitConstant_stays _ stands trivial run

theorem clears_text {s : String} (kind : t.kind = .string) (text : unquote? t.lexeme = some s) :
    Clears W P .primary [t] (.literal (.text s)) := by
  refine clears_alone (by rw [kind]; rfl) fun n mayAssign room rest c c' hprevious stands run => ?_
  rw [operand, stringOperand, bind_of_ok (get_apply c), hprevious, text] at run
  exact ((intern_stays s).idle fun _ => emitConstant_stays _) stands trivial run

/-- A word that is a value. -/
theorem clears_word {l : Literal} (starts : OperandForm.ofToken? t.kind = some .literal)
    (code : (literalCode t.kind).length = (Expr.literal l).size)
    (none : constantsAt P (.literal l) = 0) : Clears W P .primary [t] (.literal l) := by
  refine clears_alone starts fun n mayAssign room rest c c' hprevious stands run => ?_
  rw [operand, bind_of_ok (get_apply c), hprevious] at run
  rw [none] at stands
  exact code ▸ forM_emit_stays _ stands trivial run

/-- A variable that is not assigned. -/
theorem clears_variable (kind : t.kind = .identifier) (usable : Usable W P t.lexeme) :
    Clears W P .primary [t] (.variable t.lexeme) := by
  intro n least room rest c c' _ _ stands _ hequal run
  refine returns_of_operand (by rw [kind]; rfl) (fun c c' hprevious stands run => ?_) stands run
  have hread : ∀ target : Reference, Spends W P P []
    (fun kind => least.rank ≤ 1 → kind ≠ .equal) 0 2
      (do if decide (least.rank ≤ Precedence.assignment.rank) && (← check .equal) then
            advance
            expressionAt n .assignment
            emitWith target.write.1 target.write.2
          else emitWith target.read.1 target.read.2) := fun target =>
    .pass ((emitWith_stays _ _).mono (fun _ _ => trivial) (Nat.le_refl _) (Nat.le_refl _))
      fun _ hnext hassign => hnext (of_decide_eq_true hassign)
  rw [operand, variableOperand, bind_of_ok (get_apply c), hprevious] at run
  exact ((resolve_stays usable).idle hread) stands hequal run

/-- An assignment. -/
theorem clears_assign {name equals : Token} (kind : name.kind = .identifier)
    (equal : equals.kind = .equal) (usable : Usable W P name.lexeme)
    (value : Clears W P .assignment ts e) :
    Clears W P .assignment (name :: equals :: ts) (.assign name.lexeme e) := by
  intro n least room rest c c' _ hloose stands hfollow hequal run
  refine returns_of_operand (by rw [kind]; rfl) (fun c c' hprevious stands run => ?_) stands run
  have hstops : Stops .assignment (upcoming rest) :=
    ⟨Nat.lt_succ_of_le hfollow, fun _ => hequal hloose⟩
  have hwrite : ∀ target : Reference, Spends W P P (equals :: ts) (Stops .assignment)
      (constantsAt P e) (e.size + 2)
      (do if decide (least.rank ≤ Precedence.assignment.rank) && (← check .equal) then
            advance
            expressionAt n .assignment
            emitWith target.write.1 target.write.2
          else emitWith target.read.1 target.read.2) := fun target => by
    rw [decide_eq_true hloose]
    exact .check (.advance ((value.spends (by decide) n).done fun _ => emitWith_stays _ _))
      fun _ _ => equal
  rw [operand, variableOperand, bind_of_ok (get_apply c), hprevious] at run
  exact ((resolve_stays usable).idle hwrite).mono (fun _ h => h) (Nat.le_refl _)
    (Nat.le_of_eq (Nat.zero_add _)) stands hstops run

theorem clears_grouping {left right : Token} (hleft : left.kind = .leftParen)
    (hright : right.kind = .rightParen) (inside : Clears W P .assignment ts e) :
    Clears W P .primary (left :: ts ++ [right]) e := by
  intro n least room rest c c' _ _ stands _ _ run
  have hends : Stops .assignment right.kind := by
    rw [hright]
    decide
  refine returns_of_operand (by rw [hleft]; rfl) (fun c c' _ stands run => ?_) stands run
  exact ((inside.spends (by decide) n).bind (fun _ => .expects _ hright) fun _ _ => hends)
    stands trivial run

/-- The token of an operator in front of an operand starts an operand. -/
theorem form_of_unary {kind : TokenKind} {op : UnaryOperator}
    (operator : UnaryOperator.ofToken? kind = some op) :
    OperandForm.ofToken? kind = some .negation := by
  unfold UnaryOperator.ofToken? at operator
  split at operator <;> cases operator <;> rfl

theorem clears_unary {op : UnaryOperator} (operator : UnaryOperator.ofToken? t.kind = some op)
    (inside : Clears W P .unary ts e) : Clears W P .unary (t :: ts) (.unary op e) := by
  intro n least room rest c c' _ _ stands hfollow _ run
  have hstops : Stops .unary (upcoming rest) :=
    ⟨Nat.lt_succ_of_le hfollow, fun h => absurd h (by decide)⟩
  refine returns_of_operand (form_of_unary operator)
    (fun c c' hprevious stands run => ?_) stands run
  rw [operand, bind_of_ok (get_apply c), hprevious, UnaryOperator.unaryCode_eq operator] at run
  exact ((inside.spends (by decide) n).done fun _ => forM_emit_stays [op.code]) stands hstops run

/-! ### Operators -/

/-- An operator behind an expression that may stand in front of it. -/
theorem Clears.operator {form : OperatorForm} {left : Precedence} {whole : Expr}
    (clears : Clears W P left ts e) (goes : OperatorForm.ofToken? t.kind = some form)
    (binds : Precedence.ofToken t.kind = level) (follows : level.rank ≤ left.follow)
    (constants : constantsAt P whole = constantsAt P e + k) (size : whole.size = e.size + m)
    (spends : ∀ ⦃n steps room rest c c'⦄, (Precedence.ofToken (upcoming rest)).rank ≤ level.follow →
      c.previous = t → c.Stands W P (k + room) (us ++ rest) →
      Compiler.operator (expressionAt n) steps form c = .ok () c' →
      c'.Stands W P room rest ∧ c'.written ≤ c.written + m) :
    Clears W P level (ts ++ t :: us) whole := by
  intro n least room rest c c' htight hloose stands hfollow hequal run
  have hkind : t.kind ≠ .equal := by
    intro heq
    rw [heq] at goes
    cases goes
  rw [List.append_assoc, constants, Nat.add_assoc] at stands
  have hreturns := clears htight (hloose.trans (follows.trans left.follow_le)) stands
    (by rw [← binds] at follows; exact follows) (fun _ => hkind) run
  rw [size, ← Nat.add_assoc]
  exact hreturns.operator (binds ▸ hloose) goes fun _ _ _ hprevious hstands hoperator =>
    spends hfollow hprevious hstands hoperator

/-- The token of an operator between two operands goes on with an expression. -/
theorem form_of_binary {kind : TokenKind} {op : BinaryOperator}
    (operator : BinaryOperator.ofToken? kind = some op) :
    OperatorForm.ofToken? kind = some .binary := by
  unfold BinaryOperator.ofToken? at operator
  split at operator <;> cases operator <;> rfl

/-- An operator between two operands that are both evaluated. -/
theorem clears_binary {op : BinaryOperator} {left right : Expr}
    (first : Clears W P op.precedence ts left)
    (operator : BinaryOperator.ofToken? t.kind = some op)
    (second : Clears W P op.precedence.tighter us right) :
    Clears W P op.precedence (ts ++ t :: us) (.binary op left right) := by
  have hbinds := BinaryOperator.precedence_eq operator
  refine first.operator (form_of_binary operator) hbinds (by cases op <;> decide) rfl
    (Nat.add_assoc _ _ _) ?_
  intro n steps room rest c c' hfollow hprevious stands hrun
  have hstops : Stops op.precedence.tighter (upcoming rest) := by
    have htight : op.precedence.tighter.rank = op.precedence.follow + 1 := by cases op <;> rfl
    have hbinary : 3 ≤ op.precedence.follow := by cases op <;> decide
    exact ⟨by omega, fun h => by omega⟩
  rw [Compiler.operator, bind_of_ok (get_apply c), hprevious, hbinds,
    BinaryOperator.binaryCode_eq operator] at hrun
  exact ((second.spends (by cases op <;> decide) n).done fun _ => forM_emit_stays op.code)
    stands hstops hrun

/-- A conjunction jumps over its right operand. -/
theorem clears_both {left right : Expr} (first : Clears W P .equality ts left)
    (kind : t.kind = .andWord) (second : Clears W P .and us right)
    (short : right.size + 1 ≤ maxJump) :
    Clears W P .and (ts ++ t :: us) (.both left right) := by
  refine first.operator (show OperatorForm.ofToken? t.kind = some .and by rw [kind]; rfl)
    (by rw [kind]; rfl) (by decide) rfl (Nat.add_assoc _ _ _) ?_
  intro n steps room rest c c' hfollow _ stands hrun
  have hstops : Stops .and (upcoming rest) :=
    ⟨Nat.lt_succ_of_le hfollow, fun h => absurd h (by decide)⟩
  obtain ⟨toEnd, c₁, hjump, hrun⟩ := bind_eq_ok_iff.mp hrun
  obtain ⟨_, c₂, hpop, hrun⟩ := bind_eq_ok_iff.mp hrun
  obtain ⟨_, c₃, hparse, hpatch⟩ := bind_eq_ok_iff.mp hrun
  obtain ⟨hstands₁, hwritten₁, rfl⟩ := emitJump_stands stands hjump
  obtain ⟨hstands₂, hwritten₂⟩ := emit_stands hstands₁ hpop
  obtain ⟨hstands₃, hwritten₃⟩ := second.spends (by decide) n hstands₂ hstops hparse
  obtain ⟨hstands₄, hwritten₄⟩ := patchJump_stands hstands₃ (by omega) hpatch
  exact ⟨hstands₄, by omega⟩

/-- A disjunction jumps over its right operand, too. -/
theorem clears_either {left right : Expr} (first : Clears W P .and ts left)
    (kind : t.kind = .orWord) (second : Clears W P .or us right)
    (short : right.size + 1 ≤ maxJump) :
    Clears W P .or (ts ++ t :: us) (.either left right) := by
  refine first.operator (show OperatorForm.ofToken? t.kind = some .or by rw [kind]; rfl)
    (by rw [kind]; rfl) (by decide) rfl (Nat.add_assoc _ _ _) ?_
  intro n steps room rest c c' hfollow _ stands hrun
  have hstops : Stops .or (upcoming rest) :=
    ⟨Nat.lt_succ_of_le hfollow, fun h => absurd h (by decide)⟩
  have hlong : 3 ≤ maxJump := by decide
  obtain ⟨toRight, c₁, hskip, hrun⟩ := bind_eq_ok_iff.mp hrun
  obtain ⟨toEnd, c₂, hjump, hrun⟩ := bind_eq_ok_iff.mp hrun
  obtain ⟨_, c₃, hpatch, hrun⟩ := bind_eq_ok_iff.mp hrun
  obtain ⟨_, c₄, hpop, hrun⟩ := bind_eq_ok_iff.mp hrun
  obtain ⟨_, c₅, hparse, hpatch'⟩ := bind_eq_ok_iff.mp hrun
  obtain ⟨hstands₁, hwritten₁, rfl⟩ := emitJump_stands stands hskip
  obtain ⟨hstands₂, hwritten₂, rfl⟩ := emitJump_stands hstands₁ hjump
  obtain ⟨hstands₃, hwritten₃⟩ := patchJump_stands hstands₂ (by omega) hpatch
  obtain ⟨hstands₄, hwritten₄⟩ := emit_stands hstands₃ hpop
  obtain ⟨hstands₅, hwritten₅⟩ := second.spends (by decide) n hstands₄ hstops hparse
  obtain ⟨hstands₆, hwritten₆⟩ := patchJump_stands hstands₅ (by omega) hpatch'
  exact ⟨hstands₆, by omega⟩

/-! ### Calls -/

/-- The constants that some expressions take at a place. -/
abbrev constantsAllAt (P : List Draft) (es : List Expr) : Nat :=
  Expr.constantsAll (Draft.scopesOf P) es

/-- The arguments of a call after the first few, up to its closing parenthesis. -/
def Listing (W : List (List (Nat × Nat))) (P : List Draft) (ts : List Token) (es : List Expr) :
    Prop :=
  ∀ n steps count, count + es.length ≤ Draft.maxArity →
    Spends W P P ts (· = .rightParen) (constantsAllAt P es) (Expr.sizeAll es)
      (arguments (expressionAt n .assignment) steps count)

theorem listing_last (value : Clears W P .assignment ts e) : Listing W P ts [e] := by
  intro n steps count few
  cases steps with
  | zero => exact .throw _
  | succ steps =>
      have hfew : count ≠ Draft.maxArity := fun heq => by
        rw [heq, List.length_singleton] at few
        exact absurd few (by decide)
      have hends : ∀ kind, kind = .rightParen → Stops .assignment kind := by
        rintro _ rfl
        decide
      have hlast : Spends W P P [] (· = .rightParen) 0 0 (do
          if ← accept .comma then arguments (expressionAt n .assignment) steps (count + 1)
          else return count + 1) := by
        refine .skip ((Spends.pure _).mono (fun _ _ => trivial) (Nat.le_refl _) (Nat.le_refl _)) ?_
        intro rest hnext
        rw [List.nil_append, hnext]
        decide
      exact (value.spends (by decide) n).close (fun _ => .otherwise hfew hlast) hends

theorem listing_more {comma : Token} {next : Expr} (value : Clears W P .assignment ts e)
    (separates : comma.kind = .comma) (others : Listing W P us (next :: es)) :
    Listing W P (ts ++ comma :: us) (e :: next :: es) := by
  intro n steps count few
  cases steps with
  | zero => exact .throw _
  | succ steps =>
      rw [List.length_cons] at few
      have hfew : count ≠ Draft.maxArity := fun heq => by omega
      have hends : ∀ rest, upcoming rest = .rightParen →
          Stops .assignment (upcoming (comma :: us ++ rest)) := fun rest _ => by
        rw [List.cons_append, upcoming, separates]
        decide
      exact (value.spends (by decide) n).bind (fun _ => .otherwise hfew
        (.accept separates (others n steps (count + 1) (by omega)))) hends

/-- The end of a call. -/
theorem callEnd_spends {right : Token} (closes : right.kind = .rightParen) (count : Nat) :
    Spends W P P [right] Anything 0 2 (do
      expect .rightParen .parenAfterArguments
      emitWith .call (UInt8.ofNat (min count Draft.maxArity))) :=
  .expect closes (emitWith_stays _ _)

theorem clears_call {callee : Expr} {left : Token} (function : Clears W P .call ts callee)
    (kind : left.kind = .leftParen)
    (spends : ∀ n steps, Spends W P P us Anything (constantsAllAt P es) (Expr.sizeAll es + 2)
      (callOperator (expressionAt n .assignment) steps)) :
    Clears W P .call (ts ++ left :: us) (.call callee es) :=
  function.operator (show OperatorForm.ofToken? left.kind = some .call by rw [kind]; rfl)
    (by rw [kind]; rfl) (by decide) rfl (Nat.add_assoc _ _ _)
    fun _ _ _ _ _ _ _ _ stands hoperator => spends _ _ stands trivial hoperator

theorem callOperator_spends_none {right : Token} (closes : right.kind = .rightParen)
    (n steps : Nat) : Spends W P P [right] Anything 0 2
      (callOperator (expressionAt n .assignment) steps) :=
  .check (((Spends.pure 0).idle (callEnd_spends closes)).mono
    (fun _ h => h) (by decide) (by decide))
    fun _ _ => closes

theorem callOperator_spends {right : Token} (closes : right.kind = .rightParen)
    (lists : Listing W P ts es) (few : es.length ≤ Draft.maxArity)
    (some : ∀ rest, upcoming (ts ++ rest) ≠ .rightParen) (n steps : Nat) :
    Spends W P P (ts ++ [right]) Anything (constantsAllAt P es) (Expr.sizeAll es + 2)
      (callOperator (expressionAt n .assignment) steps) := by
  refine .miss ((lists n steps 0 (by omega)).bind (callEnd_spends closes) fun _ _ => closes)
    fun rest _ => ?_
  rw [List.append_assoc]
  exact some _

/-! ### Any expression -/

/-- What a tighter level derives is an expression of all looser ones. -/
theorem Clears.tighter (clears : Clears W P level.tighter ts e) : Clears W P level ts e := by
  have hfollow : level.follow ≤ level.tighter.follow := by cases level <;> decide
  intro n least room rest c c' htight hloose stands hfollows hequal run
  exact clears htight (hloose.trans (rank_tighter level)) stands (hfollows.trans hfollow) hequal run

/-- The first token of what can be derived from a part. -/
theorem upcoming_starts {part : Nonterminal} (derives : Derives [.part part] (ts.map (·.kind)))
    (real : part ≠ .declarations) (rest : List Token) :
    starts part (upcoming (ts ++ rest)) = true := by
  obtain ⟨kind, ls, hkinds, hstarts⟩ := derives.starts real
  obtain ⟨first, others, rfl, rfl, -⟩ := List.map_eq_cons_iff.mp hkinds
  exact hstarts

/-- What can be derived from a part does not start with another token. -/
theorem upcoming_ne {part : Nonterminal} {kind : TokenKind}
    (derives : Derives [.part part] (ts.map (·.kind))) (real : part ≠ .declarations)
    (other : starts part kind = false) (rest : List Token) : upcoming (ts ++ rest) ≠ kind := by
  rintro rfl
  exact absurd ((upcoming_starts derives real rest).symm.trans other) (by decide)

/-- Arguments do not start with the parenthesis that ends a call without any. -/
theorem upcoming_arguments (parsed : Arguments ts (e :: es)) (rest : List Token) :
    upcoming (ts ++ rest) ≠ .rightParen := by
  rcases arguments_derive parsed with ⟨-, hnil⟩ | hderives
  · cases hnil
  · exact upcoming_ne hderives (by decide) rfl rest

mutual

/-- Every run comes by the loop over operators behind an expression that keeps the rules. -/
theorem expression_clears {level : Precedence} {ts : List Token} {e : Expr} :
    Expression level ts e → Fine W P e → Clears W P level ts e
  | .number kind value, _ => clears_number kind value
  | .text kind text, _ => clears_text kind text
  | .nil kind, _ | .true kind, _ | .false kind, _ =>
      clears_word (by rw [kind]; rfl) (by rw [kind]; rfl) rfl
  | .variable kind, fine => clears_variable kind fine.usable
  | .grouping left inside right, fine =>
      clears_grouping left right (expression_clears inside fine)
  | .call callee left arguments right, fine => by
      obtain ⟨⟨hcallee, harguments, hfew⟩, hcallee', harguments'⟩ := fine
      rw [List.append_assoc, List.cons_append]
      refine clears_call (expression_clears callee ⟨hcallee, hcallee'⟩) left fun n steps => ?_
      rcases arguments_list arguments ⟨harguments, harguments'⟩ with ⟨rfl, rfl⟩ | ⟨hsome, hlists⟩
      · exact (callOperator_spends_none right n steps).mono (fun _ h => h) (Nat.zero_le _)
          (Nat.le_refl _)
      · exact callOperator_spends right hlists hfew hsome n steps
  | .unary operator operand, fine =>
      clears_unary operator (expression_clears operand ⟨fine.lawful, fine.usable⟩)
  | .binary first operator second, fine => by
      obtain ⟨⟨hfirst, hsecond⟩, hfirst', hsecond'⟩ := fine
      exact clears_binary (expression_clears first ⟨hfirst, hfirst'⟩) operator
        (expression_clears second ⟨hsecond, hsecond'⟩)
  | .both first word second, fine => by
      obtain ⟨⟨hfirst, hsecond, hshort⟩, hfirst', hsecond'⟩ := fine
      exact clears_both (expression_clears first ⟨hfirst, hfirst'⟩) word
        (expression_clears second ⟨hsecond, hsecond'⟩) hshort
  | .either first word second, fine => by
      obtain ⟨⟨hfirst, hsecond, hshort⟩, hfirst', hsecond'⟩ := fine
      exact clears_either (expression_clears first ⟨hfirst, hfirst'⟩) word
        (expression_clears second ⟨hsecond, hsecond'⟩) hshort
  | .assign name equals value, fine => by
      obtain ⟨hvalue, hname, hvalue'⟩ := fine
      exact clears_assign name equals hname (expression_clears value ⟨hvalue, hvalue'⟩)
  | .tighter parsed, fine => (expression_clears parsed fine).tighter

/-- Arguments are consumed up to the parenthesis behind them. -/
theorem arguments_list {ts : List Token} {es : List Expr} :
    Arguments ts es → FineAll W P es → ts = [] ∧ es = [] ∨
      (∀ rest, upcoming (ts ++ rest) ≠ .rightParen) ∧ Listing W P ts es
  | .none, _ => .inl ⟨rfl, rfl⟩
  | .last value, ⟨⟨hlawful, _⟩, hmay, _⟩ =>
      .inr ⟨upcoming_arguments (.last value),
        listing_last (expression_clears value ⟨hlawful, hmay⟩)⟩
  | .more value comma others, ⟨⟨hlawful, hlawfuls⟩, hmay, hmays⟩ => by
      refine .inr ⟨upcoming_arguments (.more value comma others), ?_⟩
      rcases arguments_list others ⟨hlawfuls, hmays⟩ with ⟨-, hnil⟩ | ⟨-, hlists⟩
      · cases hnil
      · exact listing_more (expression_clears value ⟨hlawful, hmay⟩) comma hlists

end

/-- An expression that keeps the rules is consumed in front of what may stand behind one. -/
theorem expression_spends (parsed : Expression .assignment ts e) (fine : Fine W P e) (n : Nat) :
    Spends W P P ts (Stops .assignment) (constantsAt P e) e.size (expression n) :=
  (expression_clears parsed fine).spends (by decide) n

end Lox.Compiler
