import Lox.Proofs.Compile.Acceptance.Statements

/-!
# Derivable declarations are accepted

A row of declarations is a list of pieces, each of which is one declaration. None of them begins
with an `else` or with what ends the row, so the compiler stops behind each of them and behind the
last one only.

## Main definitions

* `Declares` — one declaration.
* `Accepted` — what is proved of each part of a program.

## Main results

* `accepted_of_rule` — every rule keeps the promise.
* `declares_of_derives` — a derivable program.
-/

namespace Lox.Compiler

open Grammar

variable {n : Nat} {ks ls body parts : List TokenKind} {kind : TokenKind} {isOpen : Bool}

/-! ### Rows of declarations -/

/-- A declaration is consumed in front of anything but an `else`. -/
structure Declares (ks : List TokenKind) : Prop where
  begins : ∃ kind ls, ks = kind :: ls ∧ starts .declaration kind = true
  eats : ∀ n, Eats ks (Behind true) (declarationAt n)

/-- A declaration does not begin with a token that does not begin one. -/
theorem Declares.front_ne (declares : Declares ks) (other : starts .declaration kind = false)
    (rest : List TokenKind) : front (ks ++ rest) ≠ kind := by
  obtain ⟨first, ls, rfl, hstarts⟩ := declares.begins
  rintro rfl
  exact absurd (hstarts.symm.trans other) (by decide)

variable {chunks : List (List TokenKind)}

/-- No `else` stands behind a declaration in a row of them. -/
theorem behind_declaration {rest : List TokenKind} (each : ∀ chunk ∈ chunks, Declares chunk)
    (last : front rest ≠ .elseWord) : Behind true (front (chunks.flatten ++ rest)) := by
  intro _
  cases chunks with
  | nil => exact last
  | cons chunk chunks =>
      rw [List.flatten_cons, List.append_assoc]
      exact (each chunk (List.mem_cons_self ..)).front_ne rfl _

/-- What ends a row of declarations. -/
def EndsRow (kind : TokenKind) : Prop := kind = .rightBrace ∨ kind = .endOfInput

theorem endsRow_apply (x y : CompileM Unit) (c : Compiler) :
    (do if (← check .rightBrace) || (← check .endOfInput) then x else y) c =
      if (decide (c.current.kind = .rightBrace) || decide (c.current.kind = .endOfInput)) = true
      then x c else y c := by
  rw [bind_of_ok (check_apply _ c), bind_of_ok (check_apply _ c)]
  split <;> rfl

theorem declarations_eats (each : ∀ chunk ∈ chunks, Declares chunk) (n s : Nat) :
    Eats chunks.flatten EndsRow (declarations (declarationAt n) s) := by
  have hreports : Reports true (declarations (declarationAt n) s) :=
    Reports.throughout.declarations (statementAt_declarationAt_reports n).2
  induction chunks generalizing s with
  | nil =>
      refine ⟨hreports, fun {rest c _ _} faces hnext run => ?_⟩
      cases s with
      | zero => cases run
      | succ s =>
          have hends : EndsRow c.current.kind := faces.current ▸ hnext
          rw [declarations, endsRow_apply, if_pos (by simpa [EndsRow] using hends)] at run
          cases run
          exact .inr faces
  | cons chunk chunks ih =>
      obtain ⟨hfirst, hothers⟩ := List.forall_mem_cons.mp each
      refine ⟨hreports, fun {rest c _ _} faces hnext run => ?_⟩
      cases s with
      | zero => cases run
      | succ s =>
          have hmore : ¬ EndsRow c.current.kind := by
            rw [faces.current, List.flatten_cons, List.append_assoc]
            rintro (hend | hend)
            · exact hfirst.front_ne rfl _ hend
            · exact hfirst.front_ne rfl _ hend
          rw [declarations, endsRow_apply, if_neg (by simpa [EndsRow] using hmore)] at run
          have hboth := (hfirst.eats n).bind (fun _ => ih hothers s
            (Reports.throughout.declarations (statementAt_declarationAt_reports n).2))
              fun rest hends =>
              behind_declaration hothers (by rcases hends with h | h <;> rw [h] <;> decide)
          exact hboth.eats faces hnext run

theorem block_eats (each : ∀ chunk ∈ chunks, Declares chunk) (n s : Nat) :
    Eats (chunks.flatten ++ [.rightBrace]) Anything (block (declarationAt n) s) :=
  (declarations_eats each n s).bind (fun _ => .expects _ _) fun _ _ => .inl rfl

theorem parameters_eats {s : Nat} (others : Eats ls (· = .rightParen) (do
      if ← accept .comma then parameters s)) :
    Eats (.identifier :: ls) (· = .rightParen) (parameters (s + 1)) := by
  have hname : Eats (.identifier :: ls) (· = .rightParen) (do
      defineVariable (← variableName .parameterName)
      if ← accept .comma then parameters s) :=
    (variableName_eats _).bind (fun global => .idle (defineVariable_idles global) fun _ => others)
      fun _ _ => trivial
  exact .read (fun _ _ => rfl) fun _ => .ite
    (.idle (complainAhead_idles rfl) fun _ => hname) (.idle (modifyDraft_idles _) fun _ => hname)

theorem parameters_eats_last (s : Nat) :
    Eats [.identifier] (· = .rightParen) (parameters s) := by
  cases s with
  | zero => exact .throw _
  | succ s =>
      exact parameters_eats (.skip Reports.throughout.parameters
        ((Eats.pure _).mono fun _ _ => trivial)
        fun rest hnext => by
          rw [List.nil_append, hnext]
          decide)

theorem parameters_eats_more (others : ∀ s, Eats ls (· = .rightParen) (parameters s)) (s : Nat) :
    Eats (.identifier :: .comma :: ls) (· = .rightParen) (parameters s) := by
  cases s with
  | zero => exact .throw _
  | succ s => exact parameters_eats (.accept (others s) (.pure _))

/-- A function without parameters, or with some. -/
theorem functionBody_eats {inner : CompileM Unit} (eats : Eats body Anything inner)
    (parameters : parts = [] ∨ Eats parts (· = .rightParen) (Compiler.parameters s) ∧
      ∀ rest, front (parts ++ rest) ≠ .rightParen) :
    Eats (.leftParen :: (parts ++ .rightParen :: .leftBrace :: body)) Anything
      (functionBody inner s) := by
  have hcaptures : ∀ captures : Array Capture, Idles (captures.toList.forM fun capture => do
      emitByte (if capture.isLocal then 1 else 0)
      emitByte capture.index) := fun captures =>
    .forM (fun _ => .idle (emitByte_idles _) fun _ => emitByte_idles _) _
  have hrest : Eats (.rightParen :: .leftBrace :: body) Anything (do
      expect .rightParen .parenAfterParameters
      expect .leftBrace .braceBeforeBody
      inner
      let function ← finishFunction
      let captures := (← get).draft.captures
      leaveFunction
      emitWith .closure (← makeConstant (.object function))
      captures.toList.forM fun capture => do
        emitByte (if capture.isLocal then 1 else 0)
        emitByte capture.index) :=
    .expect (.expect (eats.done fun _ => .idle finishFunction_idles fun _ =>
      .read (fun _ _ => rfl) fun _ => .idle leaveFunction_idles fun _ =>
        .idle (makeConstant_idles _) fun _ => .idle (emitWith_idles _ _) fun _ => hcaptures _))
  refine .read (fun _ _ => rfl) fun _ => .idle (intern_idles _) fun _ =>
    .idle (enterFunction_idles _) fun _ => .idle openScope_idles fun _ => .expect ?_
  have hreports : ∀ b, Reports true (if b = true then (do Compiler.parameters s; _) else _) :=
    fun _ => .ite (.bind Reports.throughout.parameters fun _ => hrest.reports) hrest.reports
  rcases parameters with rfl | ⟨hparameters, hsome⟩
  · exact .ask (fun _ => hreports _) (fun _ _ => rfl) hrest
  · have hmiss : ∀ rest, True →
        decide (front (parts ++ .rightParen :: .leftBrace :: body ++ rest) = .rightParen) =
          false := by
      intro rest _
      rw [List.append_assoc]
      exact decide_eq_false (hsome _)
    exact .ask (fun _ => hreports _) hmiss (hparameters.bind (fun _ => hrest) fun _ _ => rfl)

theorem funDeclaration_eats {inner : CompileM Unit} {s : Nat}
    (eats : Eats ks Anything (functionBody inner s)) :
    Eats (.identifier :: ks) Anything (funDeclaration inner s) :=
  (variableName_eats _).bind (fun global => .idle markInitialized_idles fun _ =>
    eats.done fun _ => defineVariable_idles global) fun _ _ => trivial

/-- Nobody has to recover from anything. -/
theorem recover_idles : Idles (do if (← get).panicking then synchronize : CompileM Unit) := by
  refine ⟨recover_reports, fun {rest c _ _} faces _ run => ?_⟩
  have hcalm : c.panicking = false := by
    rw [panicking, faces.quiet.alarm]
    rfl
  rw [bind_of_ok (get_apply c), hcalm] at run
  cases run
  exact .inr faces

/-- What a declaration may be made of. -/
theorem declarationParts_reports (n : Nat) :
    Reports true (funDeclaration (block (declarationAt n) (n + 1)) (n + 1)) ∧
      Reports true (varDeclaration (expression (n + 1))) ∧
      Reports true (statementWith (expression (n + 1)) (block (declarationAt n) (n + 1))
        (statementAt n)) := by
  have hblock : Reports true (block (declarationAt n) (n + 1)) :=
    Reports.throughout.block (statementAt_declarationAt_reports n).2
  exact ⟨Reports.throughout.funDeclaration hblock,
    Reports.throughout.varDeclaration (Reports.throughout.expressionAt _ _),
    Reports.throughout.statementWith (Reports.throughout.expressionAt _ _) hblock
      (statementAt_declarationAt_reports n).1⟩

theorem declarationAt_eats_function
    (eats : ∀ n s, Eats ks Anything (funDeclaration (block (declarationAt n) s) s)) (n : Nat) :
    Eats (.funWord :: ks) (Behind true) (declarationAt n) := by
  cases n with
  | zero =>
      rw [declarationAt]
      exact .throw _
  | succ n =>
      obtain ⟨-, hvariable, hstatement⟩ := declarationParts_reports n
      rw [declarationAt]
      exact .accept (((eats n _).done fun _ => recover_idles).mono fun _ _ => trivial)
        (.bind (Reports.throughout.accept _) fun _ =>
          .ite (.bind hvariable fun _ => recover_reports)
          (.bind hstatement fun _ => recover_reports))

theorem declarationAt_eats_variable
    (eats : ∀ n, Eats ks Anything (varDeclaration (expression n))) (n : Nat) :
    Eats (.varWord :: ks) (Behind true) (declarationAt n) := by
  cases n with
  | zero =>
      rw [declarationAt]
      exact .throw _
  | succ n =>
      obtain ⟨hfunction, -, hstatement⟩ := declarationParts_reports n
      rw [declarationAt]
      exact .skip (.bind hfunction fun _ => recover_reports)
        (.accept (((eats _).done fun _ => recover_idles).mono fun _ _ => trivial)
          (.bind hstatement fun _ => recover_reports))
        fun _ _ => (by decide : TokenKind.varWord ≠ .funWord)

theorem declarationAt_eats_statement (shaped : Shaped isOpen ks)
    (begins : ∃ kind ls, ks = kind :: ls ∧ starts .statement kind = true) (n : Nat) :
    Eats ks (Behind true) (declarationAt n) := by
  cases n with
  | zero =>
      rw [declarationAt]
      exact .throw _
  | succ n =>
      obtain ⟨hfunction, hvariable, -⟩ := declarationParts_reports n
      have hstatement := (shaped.eats (n + 1)).mono
        fun kind (h : Behind true kind) _ => h rfl
      rw [statementAt] at hstatement
      obtain ⟨kind, ls, rfl, hstarts⟩ := begins
      rw [declarationAt]
      refine .skip (.bind hfunction fun _ => recover_reports)
        (.skip (.bind hvariable fun _ => recover_reports)
          (hstatement.done fun _ => recover_idles) fun _ _ => ?_) fun _ _ => ?_ <;>
      · rintro rfl
        cases hstarts

/-! ### Any declaration -/

/-- What is proved of each part of a program. -/
def Accepted : Nonterminal → List TokenKind → Prop
  | .declarations, ks =>
    ∃ chunks : List (List TokenKind), ks = chunks.flatten ∧ ∀ chunk ∈ chunks, Declares chunk
  | .declaration, ks => ∀ n, Eats ks (Behind true) (declarationAt n)
  | .function, ks => ∃ ls, ks = .funWord :: ls ∧
    ∀ n s, Eats ls Anything (funDeclaration (block (declarationAt n) s) s)
  | .parameters, ks => ∀ s, Eats ks (· = .rightParen) (parameters s)
  | .variable, ks => ∃ ls, ks = .varWord :: ls ∧
    ∀ n, Eats ls Anything (varDeclaration (expression n))
  | .statement, ks => ∃ isOpen, Shaped isOpen ks
  | .block, ks => ∃ ls, ks = .leftBrace :: ls ∧
    ∀ n s, Eats ls Anything (block (declarationAt n) s)
  | .initializer, ks => ∀ n, Eats ks Anything (forInitializer (expression n))
  | .condition, ks => ∀ n, Eats ks Anything (forCondition (expression n))
  | .increment, ks => ∀ n start, Eats ks Anything (forIncrement (expression n) start)
  | .expression _, _ | .arguments, _ => True

/-- A row whose parts keep what is promised of programs. -/
abbrev PartsAccepted : List Symbol → List TokenKind → Prop :=
  Each fun n ks => Derives [.part n] ks ∧ Accepted n ks

variable {right : List Symbol}

theorem declarations_rules (member : right ∈ rules .declarations) (each : PartsAccepted right ks) :
    Accepted .declarations ks := by
  simp only [rules, List.mem_cons, List.not_mem_nil, or_false] at member
  rcases member with rfl | rfl <;> simp only [PartsAccepted, each_part_iff, each_nil_iff] at each
  · exact ⟨[], each, fun _ h => by cases h⟩
  · obtain ⟨chunk, _, rfl, ⟨hchunk, heats⟩, _, _, rfl, ⟨-, chunks, rfl, heach⟩, rfl⟩ := each
    obtain ⟨kind, ls, hchunk⟩ := hchunk.starts (by decide)
    exact ⟨chunk :: chunks, by simp, List.forall_mem_cons.mpr ⟨⟨⟨kind, ls, hchunk⟩, heats⟩, heach⟩⟩

theorem declaration_rules (member : right ∈ rules .declaration) (each : PartsAccepted right ks) :
    Accepted .declaration ks := by
  simp only [rules, List.mem_cons, List.not_mem_nil, or_false] at member
  rcases member with rfl | rfl | rfl <;>
    simp only [PartsAccepted, each_part_iff, each_nil_iff] at each
  · obtain ⟨_, _, rfl, ⟨-, ls, rfl, heats⟩, rfl⟩ := each
    rw [List.append_nil]
    exact declarationAt_eats_function heats
  · obtain ⟨_, _, rfl, ⟨-, ls, rfl, heats⟩, rfl⟩ := each
    rw [List.append_nil]
    exact declarationAt_eats_variable heats
  · obtain ⟨_, _, rfl, ⟨hderives, _, hshaped⟩, rfl⟩ := each
    rw [List.append_nil]
    exact declarationAt_eats_statement hshaped (hderives.starts (by decide))

theorem function_rules (member : right ∈ rules .function) (each : PartsAccepted right ks) :
    Accepted .function ks := by
  simp only [rules, List.mem_cons, List.not_mem_nil, or_false] at member
  rcases member with rfl | rfl <;>
    simp only [PartsAccepted, each_token_iff, each_part_iff, each_nil_iff] at each
  · obtain ⟨_, rfl, _, rfl, _, rfl, _, rfl, _, _, rfl, ⟨-, body, rfl, heats⟩, rfl⟩ := each
    rw [List.append_nil]
    exact ⟨_, rfl, fun n s => funDeclaration_eats (functionBody_eats (heats n s) (.inl rfl))⟩
  · obtain ⟨_, rfl, _, rfl, _, rfl, parts, _, rfl, ⟨hderives, hparts⟩, _, rfl, _, _, rfl,
      ⟨-, body, rfl, heats⟩, rfl⟩ := each
    rw [List.append_nil]
    exact ⟨_, rfl, fun n s => funDeclaration_eats (functionBody_eats (heats n s)
      (.inr ⟨hparts s, front_ne hderives (by decide) rfl⟩))⟩

theorem parameters_rules (member : right ∈ rules .parameters) (each : PartsAccepted right ks) :
    Accepted .parameters ks := by
  simp only [rules, List.mem_cons, List.not_mem_nil, or_false] at member
  rcases member with rfl | rfl <;>
    simp only [PartsAccepted, each_token_iff, each_part_iff, each_nil_iff] at each
  · obtain ⟨_, rfl, rfl⟩ := each
    exact parameters_eats_last
  · obtain ⟨_, rfl, _, rfl, others, _, rfl, ⟨-, hothers⟩, rfl⟩ := each
    rw [List.append_nil]
    exact parameters_eats_more hothers

theorem variable_rules (member : right ∈ rules .variable) (each : PartsAccepted right ks) :
    Accepted .variable ks := by
  simp only [rules, List.mem_cons, List.not_mem_nil, or_false] at member
  rcases member with rfl | rfl <;>
    simp only [PartsAccepted, each_token_iff, each_part_iff, each_nil_iff] at each
  · obtain ⟨_, rfl, _, rfl, _, rfl, rfl⟩ := each
    exact ⟨_, rfl, fun n => varDeclaration_eats_none⟩
  · obtain ⟨_, rfl, _, rfl, _, rfl, value, _, rfl, ⟨hvalue, -⟩, _, rfl, rfl⟩ := each
    exact ⟨_, rfl, fun n => varDeclaration_eats_value hvalue⟩

theorem statement_rules (member : right ∈ rules .statement) (each : PartsAccepted right ks) :
    Accepted .statement ks := by
  simp only [rules, List.mem_cons, List.not_mem_nil, or_false] at member
  rcases member with rfl | rfl | rfl | rfl | rfl | rfl | rfl | rfl | rfl <;>
    simp only [PartsAccepted, each_token_iff, each_part_iff, each_nil_iff] at each
  · obtain ⟨value, _, rfl, ⟨hvalue, -⟩, _, rfl, rfl⟩ := each
    obtain ⟨kind, ls, rfl, hstarts⟩ := hvalue.starts (by decide)
    refine ⟨false, .plain (statementAt_eats (fun _ _ => rfl) fun n => ?_)⟩
    rw [statementOf_of_starts hstarts]
    exact expressionStatement_eats hvalue
  · obtain ⟨_, rfl, value, _, rfl, ⟨hvalue, -⟩, _, rfl, rfl⟩ := each
    exact ⟨false, .plain (statementAt_eats (fun _ _ => rfl) fun n =>
      .advance (printStatement_eats hvalue))⟩
  · obtain ⟨_, rfl, _, rfl, rfl⟩ := each
    exact ⟨false, .plain (statementAt_eats (fun _ _ => rfl) fun n =>
      .advance returnStatement_eats_none)⟩
  · obtain ⟨_, rfl, value, _, rfl, ⟨hvalue, -⟩, _, rfl, rfl⟩ := each
    exact ⟨false, .plain (statementAt_eats (fun _ _ => rfl) fun n =>
      .advance (returnStatement_eats_value hvalue))⟩
  · obtain ⟨_, _, rfl, ⟨-, body, rfl, heats⟩, rfl⟩ := each
    rw [List.append_nil]
    exact ⟨false, .plain (statementAt_eats (fun _ _ => rfl) fun n => .advance
      (.idle openScope_idles fun _ => (heats n _).done fun _ => closeScope_idles))⟩
  · obtain ⟨_, rfl, _, rfl, cond, _, rfl, ⟨hcond, -⟩, _, rfl, yes, _, rfl, ⟨-, _, hyes⟩,
      rfl⟩ := each
    rw [List.append_nil]
    exact ⟨true, .ifThen hcond hyes⟩
  · obtain ⟨_, rfl, _, rfl, cond, _, rfl, ⟨hcond, -⟩, _, rfl, yes, _, rfl, ⟨-, _, hyes⟩, _, rfl,
      no, _, rfl, ⟨-, _, hno⟩, rfl⟩ := each
    rw [List.append_nil]
    exact Shaped.choice hcond hyes hno
  · obtain ⟨_, rfl, _, rfl, cond, _, rfl, ⟨hcond, -⟩, _, rfl, body, _, rfl, ⟨-, isOpen, hbody⟩,
      rfl⟩ := each
    rw [List.append_nil]
    exact ⟨isOpen, .while hcond hbody⟩
  · obtain ⟨_, rfl, _, rfl, initial, _, rfl, ⟨-, hinitial⟩, test, _, rfl, ⟨-, htest⟩, increment,
      _, rfl, ⟨-, hincrement⟩, body, _, rfl, ⟨-, isOpen, hbody⟩, rfl⟩ := each
    rw [List.append_nil]
    exact ⟨isOpen, .for ⟨hinitial, htest, hincrement⟩ hbody⟩

theorem block_rules (member : right ∈ rules .block) (each : PartsAccepted right ks) :
    Accepted .block ks := by
  simp only [rules, List.mem_cons, List.not_mem_nil, or_false] at member
  subst member
  simp only [PartsAccepted, each_token_iff, each_part_iff, each_nil_iff] at each
  obtain ⟨_, rfl, _, _, rfl, ⟨-, chunks, rfl, heach⟩, _, rfl, rfl⟩ := each
  exact ⟨_, rfl, block_eats heach⟩

theorem initializer_rules (member : right ∈ rules .initializer) (each : PartsAccepted right ks) :
    Accepted .initializer ks := by
  simp only [rules, List.mem_cons, List.not_mem_nil, or_false] at member
  rcases member with rfl | rfl | rfl <;>
    simp only [PartsAccepted, each_token_iff, each_part_iff, each_nil_iff] at each
  · obtain ⟨_, rfl, rfl⟩ := each
    exact fun n => forInitializer_eats_none
  · obtain ⟨_, _, rfl, ⟨-, ls, rfl, heats⟩, rfl⟩ := each
    rw [List.append_nil]
    exact fun n => forInitializer_eats_variable (heats n)
  · obtain ⟨value, _, rfl, ⟨hvalue, -⟩, _, rfl, rfl⟩ := each
    exact fun n => forInitializer_eats_value hvalue

theorem condition_rules (member : right ∈ rules .condition) (each : PartsAccepted right ks) :
    Accepted .condition ks := by
  simp only [rules, List.mem_cons, List.not_mem_nil, or_false] at member
  rcases member with rfl | rfl <;>
    simp only [PartsAccepted, each_token_iff, each_part_iff, each_nil_iff] at each
  · obtain ⟨_, rfl, rfl⟩ := each
    exact fun n => forCondition_eats_none
  · obtain ⟨value, _, rfl, ⟨hvalue, -⟩, _, rfl, rfl⟩ := each
    exact fun n => forCondition_eats_value hvalue

theorem increment_rules (member : right ∈ rules .increment) (each : PartsAccepted right ks) :
    Accepted .increment ks := by
  simp only [rules, List.mem_cons, List.not_mem_nil, or_false] at member
  rcases member with rfl | rfl <;>
    simp only [PartsAccepted, each_token_iff, each_part_iff, each_nil_iff] at each
  · obtain ⟨_, rfl, rfl⟩ := each
    exact fun n => forIncrement_eats_none
  · obtain ⟨value, _, rfl, ⟨hvalue, -⟩, _, rfl, rfl⟩ := each
    exact fun n => forIncrement_eats_value hvalue

/-- Every rule for a part of a program keeps the promise. -/
theorem accepted_of_rule (part : Nonterminal) (member : right ∈ rules part)
    (each : PartsAccepted right ks) : Accepted part ks := by
  cases part with
  | declarations => exact declarations_rules member each
  | declaration => exact declaration_rules member each
  | function => exact function_rules member each
  | parameters => exact parameters_rules member each
  | «variable» => exact variable_rules member each
  | statement => exact statement_rules member each
  | block => exact block_rules member each
  | initializer => exact initializer_rules member each
  | condition => exact condition_rules member each
  | increment => exact increment_rules member each
  | expression | arguments => trivial

/-- A derivable program is a row of declarations that are consumed. -/
theorem declares_of_derives (derives : Derives [.part .declarations] ks) :
    ∃ chunks : List (List TokenKind), ks = chunks.flatten ∧ ∀ chunk ∈ chunks, Declares chunk := by
  have heach := derives.each fun part right ks member each => accepted_of_rule part member each
  obtain ⟨front, _, rfl, ⟨-, hfront⟩, hnil⟩ := each_part_iff.mp heach
  obtain rfl := each_nil_iff.mp hnil
  rw [List.append_nil]
  exact hfront

end Lox.Compiler
