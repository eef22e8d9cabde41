import Lox.Proofs.Compile.Programs
import Lox.Proofs.Compile.Reports

/-!
# The end of a panic

A panic ends with the declaration in which it began, and the next declaration is compiled as if
nothing had been reported before. There is one gap: the tokens that are skipped up to the next
statement may be malformed. The panic is over by then, so the first such token is reported and
starts a panic of its own, which lasts through the next declaration.

A declaration without others inside is one that is compiled by a compiler that gives up where
another declaration begins. All that this compiler does is done by the real one, and it gives up
on no declaration that has neither a body nor a block.

## Main definitions

* `Compiler.strayed` — the report of the first malformed token.
* `Compiler.unendedAt`, `Compiler.recover` — a declaration, and the end that all of them have.
* `Compiler.flatDeclarationAt` — declarations without others inside.
* `opening`, `diagnosticsOf` — the compiler at the first token of a source, and its diagnostics.

## Main results

* `synchronize_alarm` — a panic ends, but for malformed tokens.
* `flatDeclarationAt_refines`, `flat_of_unbraced` — what a flat declaration is.
* `declaration_recovers` — what a declaration reports, and the panic that it leaves.
* `stray_token_hides_error` — a malformed token hides the errors of the declaration behind it.
-/

namespace Lox

namespace Compiler

variable {c c' mid : Compiler} {u : Unit} {steps : Nat}

/-! ### Skipping tokens -/

/-- The report of the first malformed token. -/
def strayed (tokens : List Token) : Option Diagnostic :=
  (tokens.find? (·.kind = .malformed)).map fun t => .atToken t (.malformed t.lexeme)

/-- The first malformed token of two lists. -/
theorem strayed_append (ts us : List Token) :
    strayed (ts ++ us) = (strayed ts).or (strayed us) := by
  simp only [strayed, List.find?_append]
  cases ts.find? (·.kind = .malformed) <;> rfl

/-- A malformed token is reported if there is one. -/
theorem strayed_eq_none_iff {tokens : List Token} :
    strayed tokens = none ↔ ∀ t ∈ tokens, t.kind ≠ .malformed := by
  simp [strayed]

/-- Pulling a token reports the first malformed one before it. -/
theorem pull_alarm (c : Compiler) (pending : List Token) :
    ∃ taken, pending = taken ++ (c.pull pending).tokens.pending ∧
      (c.pull pending).alarm = c.alarm.or (strayed taken) := by
  induction pending generalizing c with
  | nil => exact ⟨[], rfl, (Option.or_none ..).symm⟩
  | cons t pending ih =>
      unfold pull
      split
      · rename_i hkind
        obtain ⟨taken, hpending, halarm⟩ := ih (c.report t (.malformed t.lexeme))
        refine ⟨t :: taken, congrArg (t :: ·) hpending, halarm.trans ?_⟩
        have hfirst : strayed (t :: taken) = some (.atToken t (.malformed t.lexeme)) := by
          simp [strayed, hkind]
        rw [hfirst]
        unfold report panicking
        cases hbefore : c.alarm <;> simp [hbefore]
      · rename_i hkind
        refine ⟨[t], rfl, ?_⟩
        simp [strayed, hkind]

/-- Skipping a statement reports the first malformed token that is skipped. -/
theorem skipStatement_alarm (run : skipStatement steps c = .ok u c') :
    ∃ taken, c.tokens.pending = taken ++ c'.tokens.pending ∧
      c'.alarm = c.alarm.or (strayed taken) ∧ c'.diagnostics = c.diagnostics := by
  induction steps generalizing c with
  | zero => cases run
  | succ steps ih =>
      rw [skipStatement, bind_of_ok (get_apply c)] at run
      split at run
      · cases run
        exact ⟨[], rfl, (Option.or_none ..).symm, rfl⟩
      · obtain ⟨_, mid, hadvance, hrest⟩ := bind_eq_ok_iff.mp run
        obtain ⟨us, hpending', halarm', hdiagnostics'⟩ := ih hrest
        cases hadvance
        obtain ⟨ts, hpending, halarm⟩ :=
          pull_alarm { c with previous := c.current } c.tokens.pending
        obtain ⟨-, -, -, -, -, hdiagnostics⟩ :=
          pull_takes { c with previous := c.current } c.tokens.pending
        refine ⟨ts ++ us, ?_, ?_, hdiagnostics'.trans hdiagnostics⟩
        · rw [List.append_assoc, ← hpending', ← hpending]
        · rw [halarm', halarm, strayed_append, Option.or_assoc]

/-- A panic ends, and what it has reported is kept; but the first malformed token that is skipped
on the way starts another one. -/
theorem synchronize_alarm (run : synchronize c = .ok u c') :
    ∃ skipped, c.tokens.pending = skipped ++ c'.tokens.pending ∧ c'.alarm = strayed skipped ∧
      c'.diagnostics = c.reported := by
  obtain ⟨_, mid, hclear, hrest⟩ := bind_eq_ok_iff.mp run
  cases hclear
  rw [bind_of_ok (get_apply _)] at hrest
  obtain ⟨skipped, hpending, halarm, hdiagnostics⟩ := skipStatement_alarm hrest
  exact ⟨skipped, hpending, by simpa using halarm, hdiagnostics⟩

/-! ### Declarations -/

/-- The end of a declaration. -/
abbrev recover : CompileM Unit := do if (← get).panicking then synchronize

/-- After a declaration, only a malformed token can have left a panic. -/
theorem recover_alarm (run : recover c = .ok u c') :
    ∃ skipped, c.tokens.pending = skipped ++ c'.tokens.pending ∧ c'.alarm = strayed skipped ∧
      c'.diagnostics = c.reported := by
  rw [recover, bind_of_ok (get_apply c)] at run
  split at run
  · exact synchronize_alarm run
  · rename_i hcalm
    cases run
    have hnone : c.alarm = none := by simpa [panicking] using hcalm
    exact ⟨[], rfl, by rw [hnone]; rfl, by rw [reported, hnone]⟩

/-- A declaration up to its end, given compilers for its parts. -/
def unendedWith (expression block statement : CompileM Unit) (steps : Nat) : CompileM Unit := do
  if ← accept .funWord then funDeclaration block steps
  else if ← accept .varWord then varDeclaration expression
  else statement

/-- Any declaration up to its end. -/
def unendedAt : (steps : Nat) → CompileM Unit
  | 0 => throw .exhausted
  | steps + 1 =>
    let expression := expression (steps + 1)
    let block := block (declarationAt steps) (steps + 1)
    unendedWith expression block (statementWith expression block (statementAt steps)) (steps + 1)

/-- Every form of declaration has the same end. -/
theorem declarationWith_eq (expression block statement : CompileM Unit) (steps : Nat) :
    declarationWith expression block statement steps =
      unendedWith expression block statement steps >>= fun _ => recover := by
  rw [declarationWith, unendedWith, bind_assoc]
  refine bind_congr fun isFunction => ?_
  cases isFunction with
  | true => rfl
  | false =>
      rw [if_neg Bool.false_ne_true, if_neg Bool.false_ne_true, bind_assoc]
      refine bind_congr fun isVariable => ?_
      cases isVariable <;> rfl

/-- Any declaration has such an end. -/
theorem declarationAt_eq (steps : Nat) :
    declarationAt steps = unendedAt steps >>= fun _ => recover := by
  cases steps with
  | zero => rw [declarationAt]; rfl
  | succ steps => rw [declarationAt, declarationWith_eq]; rfl

/-- What all parts of a declaration are, the declaration is up to its end. -/
theorem unendedWith_reports {whole : Bool} {expression inner statement : CompileM Unit}
    (value : Reports whole expression) (body : Reports whole inner)
    (part : Reports whole statement) :
    Reports whole (unendedWith expression inner statement steps) :=
  .bind (Reports.throughout.accept _) fun _ => .ite (Reports.throughout.funDeclaration body)
    (.bind (Reports.throughout.accept _) fun _ =>
      .ite (Reports.throughout.varDeclaration value) part)

/-- Any declaration takes tokens up to its end. -/
theorem unendedAt_reports (steps : Nat) : Reports true (unendedAt steps) := by
  cases steps with
  | zero => exact .throw _
  | succ steps =>
      have hvalue : Reports true (expression (steps + 1)) := Reports.throughout.expressionAt _ _
      have hbody : Reports true (block (declarationAt steps) (steps + 1)) :=
        Reports.throughout.block (statementAt_declarationAt_reports steps).2
      exact unendedWith_reports hvalue hbody
        (Reports.throughout.statementWith hvalue hbody (statementAt_declarationAt_reports steps).1)

/-- Any declaration ends as panics do. -/
theorem declarationAt_ends (run : declarationAt steps c = .ok u c') :
    ∃ mid, unendedAt steps c = .ok u mid ∧ recover mid = .ok u c' := by
  rw [declarationAt_eq] at run
  obtain ⟨_, mid, hunended, hrecover⟩ := bind_eq_ok_iff.mp run
  exact ⟨mid, hunended, hrecover⟩

/-- A declaration that reports nothing where nothing has been reported leaves no panic. -/
theorem calm_of_silent (run : declarationAt steps { c with diagnostics := #[] } =
    .ok u { c' with diagnostics := #[] }) : c'.alarm = none := by
  obtain ⟨mid, -, hrecover⟩ := declarationAt_ends run
  have hnone : mid.alarm = none := by
    obtain ⟨-, -, -, hdiagnostics⟩ := recover_alarm hrecover
    cases halarm : mid.alarm with
    | none => rfl
    | some d => simp [reported, halarm] at hdiagnostics
  rw [recover, bind_of_ok (get_apply mid), if_neg (by simp [panicking, hnone])] at hrecover
  cases hrecover
  exact hnone

/-! ### Declarations without others inside -/

/-- A statement without declarations inside: the compiler gives up where one begins. -/
def flatStatementAt : (steps : Nat) → CompileM Unit
  | 0 => throw .exhausted
  | steps + 1 =>
    statementWith (expression (steps + 1)) (block (throw .exhausted) (steps + 1))
      (flatStatementAt steps)

/-- A declaration without others inside: the compiler gives up where one begins. Blocks and bodies
may be empty. -/
def flatDeclarationAt : (steps : Nat) → CompileM Unit
  | 0 => throw .exhausted
  | steps + 1 =>
    let expression := expression (steps + 1)
    let block := block (throw .exhausted) (steps + 1)
    declarationWith expression block (statementWith expression block (flatStatementAt steps))
      (steps + 1)

/-- A flat statement adds nothing to the panics that are over. -/
theorem flatStatementAt_reports (steps : Nat) : Reports false (flatStatementAt steps) := by
  induction steps with
  | zero => exact .throw _
  | succ steps ih =>
      exact Reports.throughout.statementWith (Reports.throughout.expressionAt _ _)
        (Reports.throughout.block (.throw _)) ih

/-- A flat declaration ends as panics do, and adds nothing to those that are over before. -/
theorem flatDeclarationAt_ends (run : flatDeclarationAt steps c = .ok u c') :
    ∃ mid, recover mid = .ok u c' ∧ mid.diagnostics = c.diagnostics := by
  cases steps with
  | zero => cases run
  | succ steps =>
      have hbody : Reports false (block (throw .exhausted) (steps + 1)) :=
        Reports.throughout.block (.throw _)
      have hvalue : Reports false (expression (steps + 1)) := Reports.throughout.expressionAt _ _
      have hpart := Reports.throughout.statementWith hvalue hbody (flatStatementAt_reports steps)
      rw [flatDeclarationAt, declarationWith_eq] at run
      obtain ⟨_, mid, hflat, hrecover⟩ := bind_eq_ok_iff.mp run
      obtain ⟨-, -, hsame⟩ :=
        (unendedWith_reports hvalue hbody hpart).takes c () mid hflat
      exact ⟨mid, hrecover, hsame rfl⟩

/-- No block begins among the tokens that are consumed. -/
structure Unbraced (c : Compiler) (taken : List Token) : Prop where
  final : c.tokens.final.kind ≠ .leftBrace
  current : c.current.kind ≠ .leftBrace
  taken : ∀ t ∈ taken, t.kind ≠ .leftBrace

/-- Where no block begins, none begins in the first step. -/
theorem Unbraced.first {ts us : List Token} (unbraced : c.Unbraced (ts ++ us)) : c.Unbraced ts :=
  ⟨unbraced.final, unbraced.current, fun t ht => unbraced.taken t (List.mem_append_left us ht)⟩

/-- Where no block begins, none begins in the second step. -/
theorem Unbraced.second {ts us : List Token} (unbraced : c.Unbraced (ts ++ us))
    (takes : c.Takes ts mid) : mid.Unbraced us := by
  refine ⟨takes.final ▸ unbraced.final, ?_, fun t ht =>
    unbraced.taken t (List.mem_append_right ts ht)⟩
  rcases takes.current with heq | hmem | heq
  · exact heq ▸ unbraced.current
  · exact unbraced.taken _ (List.mem_append_left us hmem)
  · exact heq ▸ unbraced.final

/-! ### Flat declarations -/

/-- A step **refines** another one if it does the same or gives up. -/
def Refines ⦃α : Type⦄ (y x : CompileM α) : Prop := ∀ c a c', y c = .ok a c' → x c = .ok a c'

theorem refines_congruence : Congruence (fun _ _ => True) Refines := by
  refine ⟨fun _ _ _ _ run => run, fun first rest c b c' run => ?_, fun _ rest c b c' run => ?_⟩
  · obtain ⟨a, mid, hy, hg⟩ := bind_eq_ok_iff.mp run
    rw [bind_of_ok (first c a mid hy)]
    exact rest a mid b c' hg
  · exact rest c c b c' run

/-- Giving up refines everything. -/
theorem refines_throw {α : Type} (f : Fault) (x : CompileM α) : Refines (throw f) x :=
  fun _ _ _ run => by cases run

/-- A declaration that is compiled without giving up is compiled as any other. -/
theorem flatDeclarationAt_refines (steps : Nat) :
    Refines (flatDeclarationAt steps) (declarationAt steps) := by
  have himitates := refines_congruence.imitates throughout_true
  have hforms := refines_congruence.statements throughout_true
  have hvalue : ∀ steps, Refines (expression steps) (expression steps) := fun _ _ _ _ run => run
  have hblock : ∀ steps, Refines (block (throw .exhausted) (steps + 1))
      (block (declarationAt steps) (steps + 1)) := fun steps =>
    bare_block ▸ himitates.block (refines_throw _ _)
  have hstatement : ∀ steps, Refines (flatStatementAt steps) (statementAt steps) →
      Refines (statementWith (expression (steps + 1)) (block (throw .exhausted) (steps + 1))
        (flatStatementAt steps)) (statementWith (expression (steps + 1))
          (block (declarationAt steps) (steps + 1)) (statementAt steps)) := fun steps part =>
    bare_statementWith ▸ himitates.statementWith hforms (hvalue _) (hblock steps) part
  have hall : ∀ steps, Refines (flatStatementAt steps) (statementAt steps) := by
    intro steps
    induction steps with
    | zero => exact refines_throw _ _
    | succ steps ih =>
        rw [statementAt]
        exact hstatement steps ih
  cases steps with
  | zero => exact refines_throw _ _
  | succ steps =>
      rw [declarationAt, flatDeclarationAt, ← bare_declarationWith]
      exact himitates.declarationWith hforms trivial id (hvalue _) (hblock steps)
        (hstatement steps (hall steps))

/-- A step **mimics** another one if it does the same as long as no block begins. -/
def Mimics ⦃α : Type⦄ (y x : CompileM α) : Prop :=
  ∀ c a c', x c = .ok a c' → ∃ taken, c.Takes taken c' ∧ (c.Unbraced taken → y c = .ok a c')

theorem mimics_congruence : Congruence (fun _ => Reports true) Mimics := by
  constructor
  · intro α x reports c a c' run
    obtain ⟨taken, htakes, -⟩ := reports.takes c a c' run
    exact ⟨taken, htakes, fun _ => run⟩
  · intro α β y x g f first rest c b c' run
    obtain ⟨a, mid, hx, hf⟩ := bind_eq_ok_iff.mp run
    obtain ⟨ts, htakes, hsame⟩ := first c a mid hx
    obtain ⟨us, htakes', hsame'⟩ := rest a mid b c' hf
    refine ⟨ts ++ us, htakes.trans htakes', fun unbraced => ?_⟩
    rw [bind_of_ok (hsame unbraced.first)]
    exact hsame' (unbraced.second htakes)
  · exact fun _ rest c b c' run => rest c c b c' run

/-- A block is begun by its brace only. -/
theorem mimics_brace {x y : CompileM Unit} (x' : CompileM Unit) (yes : Reports true x)
    (no : Reports true y) :
    Mimics (do if ← accept .leftBrace then x' else y)
      (do if ← accept .leftBrace then x else y) := by
  intro c a c' run
  obtain ⟨taken, htakes, -⟩ :=
    (Reports.bind (Reports.throughout.accept _) fun _ => .ite yes no).takes c a c' run
  refine ⟨taken, htakes, fun unbraced => ?_⟩
  rw [bind_of_ok (accept_of_ne unbraced.current)] at run ⊢
  exact run

/-- A statement is flat if no block begins in it, and so are its parts. -/
theorem statementWith_mimics (steps : Nat) {statement statement' inner : CompileM Unit}
    (inner' : CompileM Unit) (body : Reports true inner) (part : Mimics statement' statement) :
    Mimics (statementWith (expression steps) inner' statement')
      (statementWith (expression steps) inner statement) := by
  have hvalue : Reports true (expression steps) := Reports.throughout.expressionAt _ _
  rw [← bare_statementWith]
  refine (mimics_congruence.imitates Reports.throughout).statementForms
    (mimics_congruence.statements Reports.throughout) (mimics_congruence.refl hvalue) part ?_
  exact mimics_brace _
    (.bind Reports.throughout.openScope fun _ => .bind body fun _ => Reports.throughout.closeScope)
    (Reports.throughout.expressionStatement hvalue)

/-- A statement is flat if no block begins in it. -/
theorem flatStatementAt_mimics (steps : Nat) :
    Mimics (flatStatementAt steps) (statementAt steps) := by
  induction steps with
  | zero =>
      rw [statementAt]
      exact mimics_congruence.refl (.throw _)
  | succ steps ih =>
      rw [statementAt]
      exact statementWith_mimics _ _
        (Reports.throughout.block (statementAt_declarationAt_reports steps).2) ih

/-- A declaration is flat if it declares no function and no block begins in it. -/
theorem flat_of_unbraced {taken : List Token} (run : declarationAt steps c = .ok u c')
    (split : c.tokens.pending = taken ++ c'.tokens.pending) (other : c.current.kind ≠ .funWord)
    (unbraced : c.Unbraced taken) : flatDeclarationAt steps c = .ok u c' := by
  cases steps with
  | zero => simp [declarationAt] at run
  | succ steps =>
  rw [declarationAt, declarationWith, bind_of_ok (accept_of_ne other),
    if_neg Bool.false_ne_true] at run
  rw [flatDeclarationAt, declarationWith, bind_of_ok (accept_of_ne other),
    if_neg Bool.false_ne_true]
  have hvalue : Reports true (expression (steps + 1)) := Reports.throughout.expressionAt _ _
  have hbody : Reports true (block (declarationAt steps) (steps + 1)) :=
    Reports.throughout.block (statementAt_declarationAt_reports steps).2
  have hstatement := statementWith_mimics (steps + 1) (block (throw .exhausted) (steps + 1))
    hbody (flatStatementAt_mimics steps)
  obtain ⟨taken', htakes, hsame⟩ := mimics_congruence.bind
    (mimics_congruence.refl (Reports.throughout.accept .varWord)) (fun _ => Imitates.ite
      (mimics_congruence.refl (.bind (Reports.throughout.varDeclaration hvalue)
        fun _ => recover_reports))
      (mimics_congruence.bind hstatement fun _ => mimics_congruence.refl recover_reports))
        c u c' run
  obtain rfl := List.append_cancel_right (split.symm.trans htakes.pending)
  exact hsame unbraced

/-! ### The end of a declaration -/

/-- A declaration recovers. What it adds to the diagnostics it would also add to any others, and it
adds something unless its tokens are a declaration of the grammar. It leaves a panic exactly if a
malformed token is among those that are skipped from where its own compiler has stopped up to the
next statement. Unless there are other declarations inside, it adds no more than one diagnostic;
there are none if it is compiled as a flat one, and so it is if it begins neither a function nor a
block. -/
theorem declaration_recovers (run : declarationAt steps c = .ok u c') :
    ∃ (taken skipped : List Token) (mid : Compiler) (own : Array Diagnostic),
      unendedAt steps c = .ok u mid ∧ recover mid = .ok u c' ∧ c.Takes taken mid ∧
      mid.tokens.pending = skipped ++ c'.tokens.pending ∧
      (c'.alarm = none ↔ ∀ t ∈ skipped, t.kind ≠ .malformed) ∧
      c'.diagnostics = c.diagnostics ++ own ∧
      (∀ earlier, declarationAt steps { c with diagnostics := earlier } =
        .ok u { c' with diagnostics := earlier ++ own }) ∧
      (own = #[] → c.InOrder → c.draft.Settled →
        ∃ ts s, c.ahead = ts ++ c'.ahead ∧ Grammar.Declaration ts s) ∧
      (∀ c'', flatDeclarationAt steps c = .ok u c'' → own.size ≤ 1) ∧
      (c.current.kind ≠ .funWord → c.Unbraced (taken ++ skipped) → own.size ≤ 1) := by
  obtain ⟨mid, hunended, hrecover⟩ := declarationAt_ends run
  obtain ⟨taken, htakes, -⟩ := (unendedAt_reports steps).takes c u mid hunended
  obtain ⟨skipped, hpending, halarm, -⟩ := recover_alarm hrecover
  -- the same declaration where nothing has been reported before
  have hunseen := (statementAt_declarationAt_reports steps).2.unseen { c with diagnostics := #[] }
  obtain ⟨own, hown, hreported⟩ : ∃ own, declarationAt steps { c with diagnostics := #[] } =
      .ok u { c' with diagnostics := own } ∧ c'.diagnostics = c.diagnostics ++ own := by
    have hbehind := hunseen c.diagnostics
    rw [show ({ c with diagnostics := #[] } : Compiler).after c.diagnostics = c by
      simp [after], run] at hbehind
    cases hrun : declarationAt steps { c with diagnostics := #[] } with
    | error f e =>
        rw [hrun] at hbehind
        cases hbehind
    | ok v e =>
        rw [hrun] at hbehind
        cases hbehind
        exact ⟨e.diagnostics, rfl, rfl⟩
  have hone : ∀ c'', flatDeclarationAt steps c = .ok u c'' → own.size ≤ 1 := fun c'' flat => by
    cases run.symm.trans (flatDeclarationAt_refines steps c u c'' flat)
    obtain ⟨end', hrecover', hsame⟩ := flatDeclarationAt_ends flat
    obtain ⟨-, -, -, hdiagnostics⟩ := recover_alarm hrecover'
    have hsize : c'.diagnostics.size ≤ c.diagnostics.size + 1 := by
      rw [hdiagnostics, reported, hsame]
      cases end'.alarm <;> simp
    rw [hreported, Array.size_append] at hsize
    omega
  refine ⟨taken, skipped, mid, own, hunended, hrecover, htakes, hpending, ?_, hreported,
    fun earlier => ?_, fun hnone inOrder settled => ?_, hone, fun other unbraced => ?_⟩
  · rw [halarm, strayed_eq_none_iff]
  · have hbehind := hunseen earlier
    rw [hown] at hbehind
    simpa [after, onState] using hbehind
  · subst hnone
    have hcalm : c'.alarm = none := calm_of_silent hown
    obtain ⟨-, hdeclares⟩ :=
      (statementAt_declarationAt_spec steps).2 _ _ _ hown ⟨hcalm, rfl⟩
    obtain ⟨ts, s, _, _, hparsed, emits, -⟩ := hdeclares
      ⟨{ inOrder.fed with }, inOrder.valid, inOrder.live, inOrder.drafts, inOrder.linked⟩ settled
    exact ⟨ts, s, emits.ahead, hparsed⟩
  · have hsplit : c.tokens.pending = (taken ++ skipped) ++ c'.tokens.pending := by
      rw [htakes.pending, hpending, List.append_assoc]
    exact hone c' (flat_of_unbraced run hsplit other unbraced)

end Compiler

/-! ### Sources -/

/-- The compiler at the first token of a source, with an empty heap. -/
def opening (source : String) : Compiler :=
  match Compiler.advance (.start (.ofSource source) [] (.empty {})) with
  | .ok () c => c
  | .error _ c => c

/-- The diagnostics of a source that is rejected. -/
def diagnosticsOf (source : String) : Option (List Diagnostic) :=
  match compile (.ofSource source) [] (.empty {}) with
  | .ok (.error ds) _ => some ds
  | _ => none

/-- Whether the first declaration of a source leaves a panic. -/
def leavesPanic (source : String) : Option Bool :=
  match Compiler.declarationAt 12 (opening source) with
  | .ok () c => some c.panicking
  | .error _ _ => none

/-- Whether the first declaration of a source is flat. -/
def startsFlat (source : String) : Bool :=
  match Compiler.flatDeclarationAt 12 (opening source) with
  | .ok () _ => true
  | .error _ _ => false

/-- A malformed token in the head of a function is reported, and nothing else is. The empty body
behind it holds no declaration. -/
theorem declaration_recovers_empty_body : ∃ c' skipped mid, ∃ own : Array Diagnostic,
    Compiler.declarationAt 12 (opening "fun f @ ) \x7b \x7d\nvar ;") = .ok () c' ∧
      Compiler.unendedAt 12 (opening "fun f @ ) \x7b \x7d\nvar ;") = .ok () mid ∧
      Compiler.recover mid = .ok () c' ∧ mid.tokens.pending = skipped ++ c'.tokens.pending ∧
      (∀ t ∈ skipped, t.kind ≠ .malformed) ∧ c'.alarm = none ∧
      c'.diagnostics = (opening "fun f @ ) \x7b \x7d\nvar ;").diagnostics ++ own ∧
      own.size ≤ 1 := by
  have hpanic : leavesPanic "fun f @ ) \x7b \x7d\nvar ;" = some false := by decide +kernel
  have hflat : startsFlat "fun f @ ) \x7b \x7d\nvar ;" = true := by decide +kernel
  unfold leavesPanic at hpanic
  unfold startsFlat at hflat
  split at hpanic
  · rename_i c' run
    have hcalm : c'.alarm = none := by simpa [Compiler.panicking] using hpanic
    split at hflat
    · rename_i c'' flat
      obtain ⟨-, skipped, mid, own, hunended, hrecover, -, hpending, hiff, hown, -, -, hone, -⟩ :=
        Compiler.declaration_recovers run
      exact ⟨c', skipped, mid, own, run, hunended, hrecover, hpending, hiff.mp hcalm, hcalm, hown,
        hone c'' flat⟩
    · cases hflat
  · cases hpanic

/-- A malformed token hides an error. It stands among the tokens that are skipped after the first
error, so it is reported although its declaration has been reported already; the panic that it
starts outlasts the declaration, and the error of the next one, which is reported when that stands
by itself, is not. -/
theorem stray_token_hides_error :
    leavesPanic "var a b @ c ;\nvar ;" = some true ∧
      diagnosticsOf "var a b @ c ;\nvar ;" =
        some [⟨1, .atToken "b", .expected .semicolonAfterVariable⟩,
          ⟨1, .unnamed, .malformed "Unexpected character."⟩] ∧
      diagnosticsOf "var ;" = some [⟨1, .atToken ";", .expected .variableName⟩] := by
  decide +kernel

end Lox
