import Lox.Proofs.Compile.Acceptance.Statements
import Lox.Proofs.Compile.Lawful.Scopes

/-!
# Statements that keep the rules

Each form of statement is consumed silently if its parts are, and if the jumps over its parts and
back to them are short. How far they lead follows from the sizes of the parts.

## Main results

* `varDeclaration_spends_initial` — the declaration of a variable.
* `ifStatement_spends_then`, `ifStatement_spends_else` — choices.
* `whileStatement_spends`, `forStatement_spends` — loops.
-/

namespace Lox.Compiler

open Grammar

variable {W : List (List (Nat × Nat))} {P P' : List Draft} {o : Draft} {outer : List Draft}
  {c c' : Compiler} {n room k l m start : Nat} {t word left right other : Token}
  {ts us cs ns rest : List Token} {next : TokenKind → Prop} {kind : TokenKind} {e : Expr}
  {condition increment : Option Expr} {isLocal isOpen : Bool} {own : List String}
  {around : List (List String)} {α : Type} {statement : CompileM Unit}

/-! ### Simple statements -/

/-- An expression and the token that ends it. -/
theorem Spends.value {what : Expectation} {x : CompileM α} (parsed : Expression .assignment ts e)
    (fine : Fine W P e) (ends : Stops .assignment kind) (there : t.kind = kind)
    (others : Spends W P P' us next k m x) :
    Spends W P P' (ts ++ t :: us) next (constantsAt P e + k) (e.size + m) (do
      expression n
      Compiler.expect kind what
      x) := by
  refine (expression_spends parsed fine n).bind (fun _ => .expect there others) fun _ _ => ?_
  rwa [List.cons_append, upcoming, there]

theorem expressionStatement_spends (ended : Ended ts e) (fine : Fine W P e) :
    Spends W P P ts Anything (constantsAt P e) (e.size + 1)
      (expressionStatement (expression n)) := by
  obtain ⟨parsed, semicolon⟩ := ended
  exact .value parsed fine stops_semicolon semicolon (emit_stays _)

theorem printStatement_spends (ended : Ended ts e) (fine : Fine W P e) :
    Spends W P P ts Anything (constantsAt P e) (e.size + 1) (printStatement (expression n)) := by
  obtain ⟨parsed, semicolon⟩ := ended
  exact .value parsed fine stops_semicolon semicolon (emit_stays _)

/-- A return from a function that is not the script. -/
theorem returnStatement_spends {x : CompileM Unit} (inner : o.isScript = false)
    (spends : Spends W (o :: outer) P' ts next k m x) :
    Spends W (o :: outer) P' ts next k m (do
      if (← get).draft.isScript then complain .returnFromScript
      x) := by
  intro room rest c _ c' stands hnext run
  have hinner : c.draft.isScript = false := by
    have hscript := congrArg Draft.isScript stands.head
    exact Eq.trans hscript inner
  rw [bind_of_ok (get_apply c), hinner] at run
  exact spends stands hnext run

theorem returnStatement_spends_none (inner : o.isScript = false) (semicolon : t.kind = .semicolon) :
    Spends W (o :: outer) (o :: outer) [t] Anything 0 2 (returnStatement (expression n)) :=
  returnStatement_spends inner (.accept semicolon emitReturn_stays)

theorem returnStatement_spends_value (inner : o.isScript = false) (ended : Ended ts e)
    (fine : Fine W (o :: outer) e) :
    Spends W (o :: outer) (o :: outer) ts Anything (constantsAt (o :: outer) e) (e.size + 1)
      (returnStatement (expression n)) := by
  obtain ⟨parsed, semicolon⟩ := ended
  refine returnStatement_spends inner (.skip
    (.value parsed fine stops_semicolon semicolon (emit_stays _)) fun rest _ => ?_)
  rw [List.append_assoc]
  exact upcoming_ne (expression_derives parsed) (by decide) rfl _

/-! ### Declarations of variables -/

/-- The declaration of a name, which is local or global. -/
theorem declaration_spends {what : Expectation} {x : UInt8 → CompileM Unit}
    (name : t.kind = .identifier) (placed : Placed o outer isLocal own around)
    (new : isLocal = true → o.declares t.lexeme = false ∧ own.length < Draft.maxLocals)
    (inScope : isLocal = true → ∀ i, Spends W (o.initializing t.lexeme :: outer)
      (o.declaring [t.lexeme] :: outer) ts next k m (x i))
    (global : isLocal = false → ∀ i, Spends W (o :: outer) (o :: outer) ts next k (m + 2) (x i)) :
    Spends W (o :: outer) (o.declaring (if isLocal then [t.lexeme] else []) :: outer) (t :: ts) next
      (k + if isLocal then 0 else 1) (m + if isLocal then 0 else 2) (variableName what >>= x) := by
  have hdepth := placed.depth
  cases isLocal with
  | true =>
      obtain ⟨hnew, hslot⟩ := new rfl
      rw [← placed.names, List.length_map] at hslot
      exact ((variableName_spends_local name (of_decide_eq_true hdepth) hnew hslot).bind
        (inScope rfl) fun _ _ => trivial).mono (fun _ h => h) (by simp) (by simp)
  | false =>
      exact ((variableName_spends_global name (of_decide_eq_false hdepth)).bind (global rfl)
        fun _ _ => trivial).mono (fun _ h => h) (by simp; omega) (by simp)

/-- The end of the declaration of a variable. -/
theorem varEnd_spends_local (semicolon : t.kind = .semicolon) (deep : 0 < o.depth) {name : String}
    (i : UInt8) : Spends W (o.initializing name :: outer) (o.declaring [name] :: outer) [t] Anything
      0 0 (do
        expect .semicolon .semicolonAfterVariable
        defineVariable i) :=
  .expect semicolon (defineVariable_spends_initializing deep i)

theorem varEnd_spends_global (semicolon : t.kind = .semicolon) (flat : ¬ 0 < o.depth) (i : UInt8) :
    Spends W (o :: outer) (o :: outer) [t] Anything 0 2 (do
      expect .semicolon .semicolonAfterVariable
      defineVariable i) :=
  .expect semicolon (defineVariable_stays_global flat i)

theorem varDeclaration_spends_bare (placed : Placed o outer isLocal own around)
    (name : t.kind = .identifier) (semicolon : other.kind = .semicolon)
    (new : isLocal = true → o.declares t.lexeme = false ∧ own.length < Draft.maxLocals) :
    Spends W (o :: outer) (o.declaring (if isLocal then [t.lexeme] else []) :: outer) [t, other]
      Anything (0 + if isLocal then 0 else 1) (1 + if isLocal then 0 else 2)
      (varDeclaration (expression n)) := by
  have hequal : ∀ rest, True → upcoming ([other] ++ rest) ≠ .equal := fun rest _ => by
    rw [List.singleton_append, upcoming, semicolon]
    decide
  have hdepth := placed.depth
  refine declaration_spends name placed new (fun hlocal i => ?_) fun hglobal i => ?_
  · rw [hlocal] at hdepth
    exact .skip ((emit_stays _).idle fun _ =>
      varEnd_spends_local semicolon (of_decide_eq_true hdepth) i) hequal
  · rw [hglobal] at hdepth
    exact .skip ((emit_stays _).idle fun _ =>
      varEnd_spends_global semicolon (of_decide_eq_false hdepth) i) hequal

theorem varDeclaration_spends_initial {wanted : List (Nat × Nat)}
    (placed : Placed o outer isLocal own around) (name : t.kind = .identifier)
    (equal : other.kind = .equal) (ended : Ended ts e)
    (new : isLocal = true → o.declares t.lexeme = false ∧ Stmt.Fresh own t.lexeme e)
    (lawful : e.Lawful) (sub : outsideAll (e.effects (own :: around)) ⊆ wanted) :
    Spends (wanted :: W) (o :: outer) (o.declaring (if isLocal then [t.lexeme] else []) :: outer)
      (t :: other :: ts) Anything (e.constants (own :: around) + if isLocal then 0 else 1)
      (e.size + if isLocal then 0 else 2) (varDeclaration (expression n)) := by
  obtain ⟨parsed, semicolon⟩ := ended
  have hdepth := placed.depth
  refine declaration_spends name placed (fun hlocal => ⟨(new hlocal).1, (new hlocal).2.1⟩)
    (fun hlocal i => ?_) fun hglobal i => ?_
  · rw [hlocal] at hdepth
    obtain ⟨hfine, hconstants⟩ := placed.fine_initializing lawful sub (new hlocal).2.2
    rw [← hconstants]
    exact .accept equal (.value parsed hfine stops_semicolon semicolon
      (defineVariable_spends_initializing (of_decide_eq_true hdepth) i))
  · rw [hglobal] at hdepth
    rw [← placed.scopes]
    exact .accept equal (.value parsed (placed.fine lawful sub) stops_semicolon semicolon
      (defineVariable_stays_global (of_decide_eq_false hdepth) i))

/-! ### Choices -/

/-- The first branch of a choice, and the jump behind it. -/
theorem branch_stands {f : Nat → CompileM Unit} {u : Unit}
    (yes : Spends W P P ts next k m statement)
    (short : m + 4 ≤ maxJump) (stands : c.Stands W P (k + room) (ts ++ rest))
    (hnext : next (upcoming rest))
    (run : (do
      let toElse ← emitJump .jumpIfFalse
      emit .pop
      statement
      let toEnd ← emitJump .jump
      patchJump toElse
      emit .pop
      f toEnd) c = .ok u c') :
    ∃ mid toEnd, f toEnd mid = .ok u c' ∧ mid.Stands W P room rest ∧
      mid.written ≤ c.written + (m + 8) ∧ mid.written = toEnd + 3 := by
  obtain ⟨toElse, c₁, hskip, run⟩ := bind_eq_ok_iff.mp run
  obtain ⟨_, c₂, hpop, run⟩ := bind_eq_ok_iff.mp run
  obtain ⟨_, c₃, hyes, run⟩ := bind_eq_ok_iff.mp run
  obtain ⟨toEnd, c₄, hjump, run⟩ := bind_eq_ok_iff.mp run
  obtain ⟨_, c₅, hpatch, run⟩ := bind_eq_ok_iff.mp run
  obtain ⟨_, c₆, hpop', run⟩ := bind_eq_ok_iff.mp run
  obtain ⟨hstands₁, hwritten₁, hskip⟩ := emitJump_stands stands hskip
  obtain ⟨hstands₂, hwritten₂⟩ := emit_stands hstands₁ hpop
  obtain ⟨hstands₃, hwritten₃⟩ := yes hstands₂ hnext hyes
  obtain ⟨hstands₄, hwritten₄, hjump⟩ := emitJump_stands hstands₃ hjump
  obtain ⟨hstands₅, hwritten₅⟩ := patchJump_stands hstands₄ (by omega) hpatch
  obtain ⟨hstands₆, hwritten₆⟩ := emit_stands hstands₅ hpop'
  exact ⟨c₆, toEnd, run, hstands₆, by omega, by omega⟩

theorem ifStatement_spends_then (leftParen : left.kind = .leftParen)
    (parsed : Expression .assignment cs e) (fine : Fine W P e)
    (rightParen : right.kind = .rightParen)
    (yes : Spends W P P ts (Behind isOpen) k m statement) (short : m + 4 ≤ maxJump) :
    Spends W P P (left :: (cs ++ right :: ts)) (Behind true) (constantsAt P e + k)
      (e.size + (m + 8)) (ifStatement (expression n) statement) := by
  refine .expect leftParen (.value parsed fine stops_rightParen rightParen ?_)
  intro room rest c _ c' stands hnext run
  obtain ⟨mid, toEnd, hrun, hmid, hmost, hat⟩ :=
    branch_stands yes short stands (fun _ => hnext rfl) run
  have hnone : mid.current.kind ≠ .elseWord := hmid.current ▸ hnext rfl
  rw [bind_of_ok (accept_of_ne hnone)] at hrun
  have hlong : 1 ≤ maxJump := by decide
  obtain ⟨hlast, hwritten⟩ := patchJump_stands hmid (by omega) hrun
  exact ⟨hlast, by omega⟩

theorem ifStatement_spends_else {no : Nat} (leftParen : left.kind = .leftParen)
    (parsed : Expression .assignment cs e) (fine : Fine W P e)
    (rightParen : right.kind = .rightParen)
    (first : Spends W P P ts (Behind false) k m statement) (short : m + 4 ≤ maxJump)
    (elseWord : other.kind = .elseWord) (second : Spends W P P us (Behind isOpen) l no statement)
    (short' : no + 1 ≤ maxJump) :
    Spends W P P (left :: (cs ++ right :: (ts ++ other :: us))) (Behind isOpen)
      (constantsAt P e + (k + l)) (e.size + (m + 8 + no))
      (ifStatement (expression n) statement) := by
  refine .expect leftParen (.value parsed fine stops_rightParen rightParen ?_)
  intro room rest c _ c' stands hnext run
  rw [List.append_assoc, Nat.add_assoc] at stands
  obtain ⟨mid, toEnd, hrun, hmid, hmost, hat⟩ := branch_stands first short stands nofun run
  obtain ⟨c₁, hadvance, hstands₁, -, hwritten₁⟩ := hmid.advance
  have helse : mid.current.kind = .elseWord := hmid.current_cons.trans elseWord
  rw [bind_of_ok (accept_of_eq helse hadvance)] at hrun
  obtain ⟨_, c₂, hsecond, hpatch⟩ := bind_eq_ok_iff.mp hrun
  obtain ⟨hstands₂, hwritten₂⟩ := second hstands₁ hnext hsecond
  obtain ⟨hlast, hwritten⟩ := patchJump_stands hstands₂ (by omega) hpatch
  exact ⟨hlast, by omega⟩

/-! ### Loops -/

/-- A token that is expected is there, in front of another step. -/
theorem Stands.expect {a : α} {what : Expectation} {x : CompileM α}
    (stands : c.Stands W P room (t :: ts)) (there : t.kind = kind)
    (run : (do Compiler.expect kind what; x) c = .ok a c') :
    ∃ mid, x mid = .ok a c' ∧ mid.Stands W P room ts ∧ mid.written = c.written := by
  obtain ⟨mid, hadvance, hmid, -, hwritten⟩ := stands.advance
  have hkind : c.current.kind = kind := stands.current_cons.trans there
  have hexpect : Compiler.expect kind what c = .ok () mid := by
    rw [Compiler.expect, bind_of_ok (check_apply kind c), if_pos (by simpa using hkind), hadvance]
  rw [bind_of_ok hexpect] at run
  exact ⟨mid, run, hmid, hwritten⟩

/-- An expression and the token that ends it, in front of another step. -/
theorem Stands.value {a : α} {what : Expectation} {x : CompileM α}
    (stands : c.Stands W P (constantsAt P e + room) (ts ++ t :: us))
    (parsed : Expression .assignment ts e) (fine : Fine W P e) (ends : Stops .assignment kind)
    (there : t.kind = kind)
    (run : (do expression n; Compiler.expect kind what; x) c = .ok a c') :
    ∃ mid, x mid = .ok a c' ∧ mid.Stands W P room us ∧ mid.written ≤ c.written + e.size := by
  obtain ⟨_, c₁, hvalue, run⟩ := bind_eq_ok_iff.mp run
  obtain ⟨hstands₁, hwritten₁⟩ := expression_spends parsed fine n stands
    (by rwa [upcoming, there]) hvalue
  obtain ⟨mid, hrun, hmid, hwritten⟩ := hstands₁.expect there run
  exact ⟨mid, hrun, hmid, by omega⟩

theorem whileStatement_spends (leftParen : left.kind = .leftParen)
    (parsed : Expression .assignment cs e) (fine : Fine W P e)
    (rightParen : right.kind = .rightParen) (body : Spends W P P ts next k m statement)
    (reachable : Stmt.Reachable (some e) none m) :
    Spends W P P (left :: (cs ++ right :: ts)) next (constantsAt P e + k)
      (e.size + 5 + m + 3) (whileStatement (expression n) statement) := by
  obtain ⟨hend, -, hback⟩ := reachable
  replace hend : 0 + m + 4 ≤ maxJump := hend e rfl
  replace hback : e.size + 4 + m + 3 ≤ maxJump := hback
  intro room rest c _ c' stands hnext run
  rw [List.cons_append, List.append_assoc, Nat.add_assoc] at stands
  obtain ⟨start, c₀, hstart, run⟩ := bind_eq_ok_iff.mp run
  cases hstart
  obtain ⟨c₁, run, hstands₁, hwritten₁⟩ := stands.expect leftParen run
  obtain ⟨c₂, run, hstands₂, hwritten₂⟩ :=
    hstands₁.value parsed fine stops_rightParen rightParen run
  obtain ⟨toEnd, c₃, hjump, run⟩ := bind_eq_ok_iff.mp run
  obtain ⟨_, c₄, hpop, run⟩ := bind_eq_ok_iff.mp run
  obtain ⟨_, c₅, hbody, run⟩ := bind_eq_ok_iff.mp run
  obtain ⟨_, c₆, hloop, run⟩ := bind_eq_ok_iff.mp run
  obtain ⟨_, c₇, hpatch, hpop'⟩ := bind_eq_ok_iff.mp run
  obtain ⟨hstands₃, hwritten₃, hjump⟩ := emitJump_stands hstands₂ hjump
  obtain ⟨hstands₄, hwritten₄⟩ := emit_stands hstands₃ hpop
  obtain ⟨hstands₅, hwritten₅⟩ := body hstands₄ hnext hbody
  obtain ⟨hstands₆, hwritten₆⟩ := emitLoop_stands hstands₅
    (show _ ≤ c.written + maxJump by omega) hloop
  obtain ⟨hstands₇, hwritten₇⟩ := patchJump_stands hstands₆ (by omega) hpatch
  obtain ⟨hstands₈, hwritten₈⟩ := emit_stands hstands₇ hpop'
  exact ⟨hstands₈, by omega⟩

/-- The constants of a clause that may be missing. -/
abbrev constantsOf (P : List Draft) (clause : Option Expr) : Nat := clause.elim 0 (constantsAt P)

/-- The test of a loop, and the jump out of it. -/
theorem forCondition_stands {toEnd : Option Nat}
    (stands : c.Stands W P (constantsOf P condition + room) (cs ++ rest))
    (parsed : Condition cs condition) (fine : ∀ e ∈ condition, Fine W P e)
    (run : forCondition (expression n) c = .ok toEnd c') :
    c'.Stands W P room rest ∧ c'.written ≤ c.written + condition.elim 0 (·.size + 4) ∧
      toEnd.isSome = condition.isSome ∧ ∀ operand ∈ toEnd, c'.written = operand + 3 := by
  cases parsed with
  | none semicolon =>
      obtain ⟨mid, hadvance, hmid, -, hwritten⟩ := stands.advance
      have hkind : c.current.kind = .semicolon := stands.current_cons.trans semicolon
      rw [forCondition, bind_of_ok (accept_of_eq hkind hadvance)] at run
      cases run
      exact ⟨Nat.zero_add room ▸ hmid, Nat.le_of_eq hwritten, rfl, nofun⟩
  | some ended =>
      obtain ⟨value, semicolon⟩ := ended
      rw [List.append_assoc] at stands
      have hother : c.current.kind ≠ .semicolon :=
        stands.current ▸ upcoming_ne (expression_derives value) (by decide) rfl _
      rw [forCondition, bind_of_ok (accept_of_ne hother)] at run
      obtain ⟨c₁, run, hstands₁, hwritten₁⟩ :=
        stands.value value (fine _ rfl) stops_semicolon semicolon run
      obtain ⟨operand, c₂, hjump, run⟩ := bind_eq_ok_iff.mp run
      obtain ⟨_, c₃, hpop, hpure⟩ := bind_eq_ok_iff.mp run
      cases hpure
      obtain ⟨hstands₂, hwritten₂, hoperand⟩ := emitJump_stands hstands₁ hjump
      obtain ⟨hstands₃, hwritten₃⟩ := emit_stands hstands₂ hpop
      refine ⟨hstands₃, ?_, rfl, ?_⟩
      · rw [Option.elim_some]
        omega
      · rintro _ ⟨⟩
        omega

/-- What a loop does after each round, and where its body goes back to. -/
theorem forIncrement_stands {tested back : Nat}
    (stands : c.Stands W P (constantsOf P increment + room) (ns ++ rest))
    (parsed : Increment ns increment) (fine : ∀ e ∈ increment, Fine W P e)
    (behind : c.written ≤ start + tested)
    (short : ∀ e ∈ increment, tested + e.size + 7 ≤ maxJump)
    (run : forIncrement (expression n) start c = .ok back c') :
    c'.Stands W P room rest ∧ c'.written ≤ c.written + increment.elim 0 (·.size + 7) ∧
      c'.written ≤ back + increment.elim tested (·.size + 4) := by
  cases parsed with
  | none rightParen =>
      obtain ⟨mid, hadvance, hmid, -, hwritten⟩ := stands.advance
      have hkind : c.current.kind = .rightParen := stands.current_cons.trans rightParen
      rw [forIncrement, bind_of_ok (accept_of_eq hkind hadvance)] at run
      cases run
      exact ⟨Nat.zero_add room ▸ hmid, Nat.le_of_eq hwritten, hwritten ▸ behind⟩
  | @some _ _ e value rightParen =>
      rw [List.append_assoc] at stands
      have hother : c.current.kind ≠ .rightParen :=
        stands.current ▸ upcoming_ne (expression_derives value) (by decide) rfl _
      rw [forIncrement, bind_of_ok (accept_of_ne hother)] at run
      obtain ⟨toBody, c₁, hjump, run⟩ := bind_eq_ok_iff.mp run
      obtain ⟨_, c₂, hhere, run⟩ := bind_eq_ok_iff.mp run
      cases hhere
      obtain ⟨_, c₃, hvalue, run⟩ := bind_eq_ok_iff.mp run
      obtain ⟨_, c₄, hpop, run⟩ := bind_eq_ok_iff.mp run
      obtain ⟨hstands₁, hwritten₁, hjump⟩ := emitJump_stands stands hjump
      obtain ⟨hstands₃, hwritten₃⟩ := expression_spends value (fine e rfl) n hstands₁
        (by rw [List.singleton_append, upcoming, rightParen]; exact stops_rightParen) hvalue
      obtain ⟨hstands₄, hwritten₄⟩ := emit_stands hstands₃ hpop
      obtain ⟨c₅, run, hstands₅, hwritten₅⟩ := hstands₄.expect rightParen run
      obtain ⟨_, c₆, hloop, run⟩ := bind_eq_ok_iff.mp run
      obtain ⟨_, c₇, hpatch, hpure⟩ := bind_eq_ok_iff.mp run
      cases hpure
      have hshort := short e rfl
      obtain ⟨hstands₆, hwritten₆⟩ := emitLoop_stands hstands₅ (by omega) hloop
      obtain ⟨hstands₇, hwritten₇⟩ := patchJump_stands hstands₆ (by omega) hpatch
      refine ⟨hstands₇, ?_, ?_⟩
      · rw [Option.elim_some]
        omega
      · rw [Option.elim_some, show c₁.draft.chunk.code.size = c₁.written from rfl]
        omega

/-- A loop behind its initializer, and what follows it. -/
theorem forStatement_spends {new : List String} (leftParen : left.kind = .leftParen)
    (settled : o.Settled)
    (first : Spends W (o.deeper :: outer) (o.deeper.declaring new :: outer) us Anything l start
      (forInitializer (expression n)))
    (test : Condition cs condition)
    (hcondition : ∀ e ∈ condition, Fine W (o.deeper.declaring new :: outer) e)
    (round : Increment ns increment)
    (hincrement : ∀ e ∈ increment, Fine W (o.deeper.declaring new :: outer) e)
    (body : Spends W (o.deeper.declaring new :: outer) (o.deeper.declaring new :: outer) ts next k m
      statement)
    (reachable : Stmt.Reachable condition increment m) :
    Spends W (o :: outer) (o :: outer) (left :: (us ++ (cs ++ (ns ++ ts)))) next
      (l + (constantsOf (o.deeper.declaring new :: outer) condition +
        (constantsOf (o.deeper.declaring new :: outer) increment + k)))
      (start + (condition.elim 0 (·.size + 5) + increment.elim 0 (·.size + 7) + m + 3 +
        new.length)) (forStatement (expression n) statement) := by
  obtain ⟨hend, hshort, hback⟩ := reachable
  intro room rest c _ c' stands hnext run
  simp only [List.cons_append, List.append_assoc, Nat.add_assoc] at stands
  obtain ⟨_, c₁, hopen, run⟩ := bind_eq_ok_iff.mp run
  obtain ⟨hstands₁, hwritten₁⟩ :=
    openScope_stays (stands.mono (Nat.le_of_eq (Nat.zero_add _))) trivial hopen
  obtain ⟨c₂, run, hstands₂, hwritten₂⟩ := hstands₁.expect leftParen run
  obtain ⟨_, c₃, hfirst, run⟩ := bind_eq_ok_iff.mp run
  obtain ⟨hstands₃, hwritten₃⟩ := first hstands₂ trivial hfirst
  obtain ⟨_, c₀, hstart, run⟩ := bind_eq_ok_iff.mp run
  cases hstart
  obtain ⟨toEnd, c₄, htest, run⟩ := bind_eq_ok_iff.mp run
  obtain ⟨hstands₄, hwritten₄, hsome, htoEnd⟩ := forCondition_stands hstands₃ test hcondition htest
  obtain ⟨back, c₅, hround, run⟩ := bind_eq_ok_iff.mp run
  obtain ⟨hstands₅, hwritten₅, hbehind⟩ :=
    forIncrement_stands hstands₄ round hincrement hwritten₄ hshort hround
  obtain ⟨_, c₆, hbody, run⟩ := bind_eq_ok_iff.mp run
  obtain ⟨hstands₆, hwritten₆⟩ := body hstands₅ hnext hbody
  obtain ⟨_, c₇, hloop, run⟩ := bind_eq_ok_iff.mp run
  obtain ⟨hstands₇, hwritten₇⟩ := emitLoop_stands hstands₆ (by omega) hloop
  have hclose : ∀ {c₈}, c₈.Stands W (o.deeper.declaring new :: outer) room rest →
      closeScope c₈ = .ok () c' →
        c'.Stands W (o :: outer) room rest ∧ c'.written ≤ c₈.written + new.length :=
    fun hstands hrun => closeScope_spends settled new
      (hstands.mono (Nat.le_of_eq (Nat.zero_add _))) trivial hrun
  cases toEnd with
  | none =>
      obtain rfl := Option.isNone_iff_eq_none.mp (by simpa using hsome.symm)
      obtain ⟨hlast, hwritten⟩ := hclose hstands₇ run
      simp only [Option.elim_none] at hwritten₄ ⊢
      exact ⟨hlast, by omega⟩
  | some operand =>
      obtain ⟨e, rfl⟩ := Option.isSome_iff_exists.mp hsome.symm
      have hoperand := htoEnd operand rfl
      have hshort := hend e rfl
      obtain ⟨_, c₈, hpatch, run⟩ := bind_eq_ok_iff.mp run
      obtain ⟨_, c₉, hpop, run⟩ := bind_eq_ok_iff.mp run
      obtain ⟨hstands₈, hwritten₈⟩ := patchJump_stands hstands₇ (by omega) hpatch
      obtain ⟨hstands₉, hwritten₉⟩ := emit_stands hstands₈ hpop
      obtain ⟨hlast, hwritten⟩ := hclose hstands₉ run
      simp only [Option.elim_some] at hwritten₄ ⊢
      exact ⟨hlast, by omega⟩

theorem forInitializer_spends_none (semicolon : t.kind = .semicolon) :
    Spends W P P [t] Anything 0 0 (forInitializer (expression n)) :=
  .accept semicolon (.pure _)

theorem forInitializer_spends_variable (varWord : word.kind = .varWord)
    (spends : Spends W P P' ts Anything k m (varDeclaration (expression n))) :
    Spends W P P' (word :: ts) Anything k m (forInitializer (expression n)) := by
  refine .skip (.accept varWord spends) fun rest _ => ?_
  rw [List.cons_append, upcoming, varWord]
  decide

theorem forInitializer_spends_expression (ended : Ended ts e) (fine : Fine W P e) :
    Spends W P P ts Anything (constantsAt P e) (e.size + 1) (forInitializer (expression n)) := by
  have hother : ∀ {kind}, startsExpression kind = false → ∀ rest, True →
      upcoming (ts ++ rest) ≠ kind := fun hkind rest _ => by
    obtain ⟨parsed, -⟩ := ended
    rw [List.append_assoc]
    exact upcoming_ne (expression_derives parsed) (by decide) hkind _
  exact .skip (.skip (expressionStatement_spends ended fine) (hother rfl)) (hother rfl)

/-! ### Any statement -/

/-- A statement that begins with a token. -/
theorem statementAt_spends (begins : ∀ rest, next (upcoming rest) → upcoming (ts ++ rest) = kind)
    (spends : ∀ n, Spends W P P' ts next k m (statementOf (expression (n + 1))
      (block (declarationAt n) (n + 1)) (statementAt n) kind)) (n : Nat) :
    Spends W P P' ts next k m (statementAt n) := by
  intro room rest c _ c' stands hnext run
  cases n with
  | zero =>
      rw [statementAt] at run
      cases run
  | succ n =>
      have hkind : c.current.kind = kind := stands.current.trans (begins rest hnext)
      rw [statementAt, statementWith_apply, hkind] at run
      exact spends n stands hnext run

/-- A statement that begins with a word of its own. -/
theorem statementAt_spends_word {step : Nat → CompileM Unit} (is : word.kind = kind)
    (of : ∀ n, statementOf (expression (n + 1)) (block (declarationAt n) (n + 1)) (statementAt n)
      kind = (do advance; step n))
    (spends : ∀ n, Spends W P P' ts next k m (step n)) (n : Nat) :
    Spends W P P' (word :: ts) next k m (statementAt n) := by
  have hbegins : ∀ rest, next (upcoming rest) → upcoming (word :: ts ++ rest) = kind :=
    fun _ _ => is
  refine statementAt_spends hbegins (fun n => ?_) n
  rw [of n]
  exact .advance (spends n)

/-- A statement that is an expression. -/
theorem statementAt_spends_expression (ended : Ended ts e) (fine : Fine W P e) (n : Nat) :
    Spends W P P ts Anything (constantsAt P e) (e.size + 1) (statementAt n) := by
  intro room rest c _ c' stands hnext run
  cases n with
  | zero =>
      rw [statementAt] at run
      cases run
  | succ n =>
      have hstarts : startsExpression c.current.kind = true := by
        obtain ⟨parsed, -⟩ := ended
        rw [stands.current, List.append_assoc]
        exact upcoming_starts (expression_derives parsed) (by decide) _
      rw [statementAt, statementWith_apply, statementOf_of_starts hstarts] at run
      exact expressionStatement_spends ended fine stands hnext run

/-- Declarations between braces. Their locals leave the stack at the end. -/
theorem braces_spends {inner : CompileM Unit} {new : List String} (settled : o.Settled)
    (spends : Spends W (o.deeper :: outer) (o.deeper.declaring new :: outer) ts Anything k m
      inner) :
    Spends W (o :: outer) (o :: outer) ts Anything k (m + new.length) (do
      openScope
      inner
      closeScope) :=
  (openScope_stays.idle fun _ => spends.done fun _ => closeScope_spends settled new).mono
    (fun _ h => h) (by omega) (by omega)

end Lox.Compiler
