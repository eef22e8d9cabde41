import Lox.Proofs.Compile.Throughout
import Lox.Proofs.Sequencing

/-!
# What the compiler takes and reports

Whatever the tokens are, the compiler takes them from the front of the stream, and what has been
reported stays reported. It never looks at the panics that are over: started with other
diagnostics it does the same, and puts its own behind them. Only the end of a declaration ends a
panic, so a step that holds no declaration adds nothing to the panics that are over.

## Main definitions

* `Compiler.after` — a state with other diagnostics in front.
* `Compiler.Takes` — tokens taken between two states.
* `Compiler.Reports` — a step that takes tokens and reports as described.

## Main results

* `Reports.throughout` — every step reports as described.
* `statementAt_declarationAt_reports` — any statement and declaration.
-/

namespace Lox.Compiler

variable {c c' c'' : Compiler} {α β : Type} {whole : Bool}

/-! ### Diagnostics in front -/

/-- The same state after other panics. -/
def after (earlier : Array Diagnostic) (c : Compiler) : Compiler :=
  { c with diagnostics := earlier ++ c.diagnostics }

/-- All that is reported is reported behind the other diagnostics. -/
theorem reported_after (earlier : Array Diagnostic) (c : Compiler) :
    (c.after earlier).reported = earlier ++ c.reported := by
  unfold reported after
  cases c.alarm with
  | none => rfl
  | some d => simp

/-- Reporting does not depend on other panics. -/
theorem report_after (earlier : Array Diagnostic) (c : Compiler) (token : Token) (issue : Issue) :
    (c.after earlier).report token issue = (c.report token issue).after earlier := by
  unfold report
  rw [show (c.after earlier).panicking = c.panicking from rfl]
  split <;> rfl

/-- A report adds to what is reported, or leaves it as it is. -/
theorem reported_report (c : Compiler) (token : Token) (issue : Issue) :
    c.reported.toList <+: (c.report token issue).reported.toList := by
  unfold report
  split
  · exact List.prefix_rfl
  · rename_i hcalm
    have hnone : c.alarm = none := by simpa [panicking] using hcalm
    simp [reported, hnone]

/-- The error that keeps up the alarm has been reported. -/
theorem mem_reported_of_alarm {d : Diagnostic} (alarm : c.alarm = some d) :
    d ∈ c.reported.toList := by
  simp [reported, alarm]

/-- A report changes neither the tokens nor the panics that are over. -/
theorem report_tokens (c : Compiler) (token : Token) (issue : Issue) :
    (c.report token issue).tokens = c.tokens ∧ (c.report token issue).current = c.current ∧
      (c.report token issue).diagnostics = c.diagnostics := by
  unfold report
  split <;> exact ⟨rfl, rfl, rfl⟩

/-! ### Tokens taken -/

/-- Tokens are taken from the front of the stream, and what has been reported stays. -/
structure Takes (c : Compiler) (taken : List Token) (c' : Compiler) : Prop where
  pending : c.tokens.pending = taken ++ c'.tokens.pending
  final : c'.tokens.final = c.tokens.final
  current : c'.current = c.current ∨ c'.current ∈ taken ∨ c'.current = c.tokens.final
  reported : c.reported.toList <+: c'.reported.toList

/-- Nothing is taken. -/
theorem Takes.refl (c : Compiler) : c.Takes [] c := ⟨rfl, rfl, .inl rfl, List.prefix_rfl⟩

/-- Tokens taken in two steps. -/
theorem Takes.trans {ts us : List Token} (first : c.Takes ts c') (second : c'.Takes us c'') :
    c.Takes (ts ++ us) c'' := by
  refine ⟨by rw [first.pending, second.pending, List.append_assoc],
    second.final.trans first.final, ?_, first.reported.trans second.reported⟩
  rcases second.current with heq | hmem | heq
  · rw [heq]
    exact first.current.imp_right (Or.imp_left (List.mem_append_left us))
  · exact .inr (.inl (List.mem_append_right ts hmem))
  · exact .inr (.inr (heq.trans first.final))

/-- A step of the compiler that takes tokens from the front, keeps what has been reported and
does not look at the panics that are over. Unless it may hold a *whole* declaration, it adds
nothing to them. -/
structure Reports (whole : Bool) (x : CompileM α) : Prop where
  unseen : ∀ c earlier, x (c.after earlier) = onState (after earlier) (x c)
  takes : ∀ c a c', x c = .ok a c' → ∃ taken, c.Takes taken c' ∧
    (whole = false → c'.diagnostics = c.diagnostics)

namespace Reports

theorem pure (a : α) : Reports whole (Pure.pure a : CompileM α) := by
  refine ⟨fun _ _ => rfl, ?_⟩
  rintro c _ _ ⟨⟩
  exact ⟨[], .refl c, fun _ => rfl⟩

theorem throw (f : Fault) : Reports whole (throw f : CompileM α) := by
  refine ⟨fun _ _ => rfl, ?_⟩
  rintro c _ _ ⟨⟩

theorem bind {x : CompileM α} {f : α → CompileM β} (first : Reports whole x)
    (rest : ∀ a, Reports whole (f a)) : Reports whole (x >>= f) := by
  refine ⟨fun c earlier => bind_onState (first.unseen c earlier) fun a c' =>
    (rest a).unseen c' earlier, fun c b c' run => ?_⟩
  obtain ⟨a, mid, hfirst, hrest⟩ := bind_eq_ok_iff.mp run
  obtain ⟨ts, htakes, hsame⟩ := first.takes c a mid hfirst
  obtain ⟨us, htakes', hsame'⟩ := (rest a).takes mid b c' hrest
  exact ⟨ts ++ us, htakes.trans htakes', fun hwhole => (hsame' hwhole).trans (hsame hwhole)⟩

/-- Looking at the state, but not at the panics that are over. -/
theorem read {f : Compiler → CompileM α} (same : ∀ c earlier, f (c.after earlier) = f c)
    (rest : ∀ c, Reports whole (f c)) : Reports whole (get >>= f) := by
  refine ⟨fun c earlier => ?_, fun c b c' run => (rest c).takes c b c' run⟩
  rw [bind_of_ok (get_apply _), bind_of_ok (get_apply _), same]
  exact (rest c).unseen c earlier

/-- A change that has nothing to do with tokens and reports. -/
theorem change {f : Compiler → Compiler}
    (same : ∀ c earlier, f (c.after earlier) = (f c).after earlier)
    (frame : ∀ c, (f c).tokens = c.tokens ∧ (f c).current = c.current ∧ (f c).alarm = c.alarm ∧
      (f c).diagnostics = c.diagnostics) : Reports whole (modify f) := by
  refine ⟨fun c earlier => ?_, ?_⟩
  · rw [modify_apply, modify_apply, same]
    rfl
  · rintro c _ _ ⟨⟩
    obtain ⟨htokens, hcurrent, halarm, hdiagnostics⟩ := frame c
    have hreported : (f c).reported = c.reported := by simp [reported, halarm, hdiagnostics]
    exact ⟨[], ⟨by rw [htokens]; rfl, by rw [htokens], .inl hcurrent, hreported ▸ List.prefix_rfl⟩,
      fun _ => hdiagnostics⟩

/-- A report. -/
theorem report {token : Compiler → Token} (same : ∀ c earlier, token (c.after earlier) = token c)
    (issue : Issue) : Reports whole (modify fun c => c.report (token c) issue) := by
  refine ⟨fun c earlier => ?_, ?_⟩
  · rw [modify_apply, modify_apply, same, report_after]
    rfl
  · rintro c _ _ ⟨⟩
    obtain ⟨htokens, hcurrent, hdiagnostics⟩ := report_tokens c (token c) issue
    exact ⟨[], ⟨by rw [htokens]; rfl, by rw [htokens], .inl hcurrent, reported_report c _ _⟩,
      fun _ => hdiagnostics⟩

theorem ite {p : Prop} [Decidable p] {x y : CompileM α} (yes : Reports whole x)
    (no : Reports whole y) : Reports whole (if p then x else y) := by
  split
  · exact yes
  · exact no

theorem forM {γ : Type} {f : γ → CompileM PUnit} (each : ∀ a, Reports whole (f a)) (l : List γ) :
    Reports whole (l.forM f) := by
  induction l with
  | nil => exact .pure _
  | cons a l ih => exact .bind (each a) fun _ => ih

end Reports

/-! ### Tokens -/

/-- Pulling a token does not depend on other panics. -/
theorem pull_after (earlier : Array Diagnostic) (c : Compiler) (pending : List Token) :
    (c.after earlier).pull pending = (c.pull pending).after earlier := by
  induction pending generalizing c with
  | nil => rfl
  | cons t pending ih =>
      unfold pull
      split
      · rw [report_after, ih]
      · rfl

/-- What is pulled out of a stream. -/
theorem pull_takes (c : Compiler) (pending : List Token) :
    ∃ taken, pending = taken ++ (c.pull pending).tokens.pending ∧
      (c.pull pending).tokens.final = c.tokens.final ∧
      ((c.pull pending).current ∈ taken ∨ (c.pull pending).current = c.tokens.final) ∧
      c.reported.toList <+: (c.pull pending).reported.toList ∧
      (c.pull pending).diagnostics = c.diagnostics := by
  induction pending generalizing c with
  | nil => exact ⟨[], rfl, rfl, .inr rfl, List.prefix_rfl, rfl⟩
  | cons t pending ih =>
      unfold pull
      split
      · obtain ⟨htokens, -, hdiagnostics⟩ := report_tokens c t (.malformed t.lexeme)
        obtain ⟨taken, hpending, hfinal, hcurrent, hreported, hsame⟩ :=
          ih (c.report t (.malformed t.lexeme))
        rw [htokens] at hfinal hcurrent
        exact ⟨t :: taken, congrArg (t :: ·) hpending, hfinal,
          hcurrent.imp_left (List.mem_cons_of_mem t), (reported_report c _ _).trans hreported,
          hsame.trans hdiagnostics⟩
      · exact ⟨[t], rfl, rfl, .inl (List.mem_cons_self ..), List.prefix_rfl, rfl⟩

theorem advance_reports : Reports whole advance := by
  refine ⟨fun c earlier => ?_, ?_⟩
  · rw [advance, modify_apply, modify_apply]
    exact congrArg _ (pull_after earlier { c with previous := c.current } c.tokens.pending)
  · rintro c _ _ ⟨⟩
    obtain ⟨taken, hpending, hfinal, hcurrent, hreported, hsame⟩ :=
      pull_takes { c with previous := c.current } c.tokens.pending
    exact ⟨taken, ⟨hpending, hfinal, .inr hcurrent, hreported⟩, fun _ => hsame⟩

theorem complain_reports (issue : Issue) : Reports whole (complain issue) :=
  .report (fun _ _ => rfl) issue

theorem complainAhead_reports (issue : Issue) : Reports whole (complainAhead issue) :=
  .report (fun _ _ => rfl) issue

/-- Looking at the token ahead. -/
theorem check_apply (kind : TokenKind) (c : Compiler) :
    check kind c = .ok (decide (c.current.kind = kind)) c := rfl

/-- A token of the given kind is consumed. -/
theorem accept_of_eq {kind : TokenKind} (hkind : c.current.kind = kind)
    (run : advance c = .ok () c') : accept kind c = .ok true c' := by
  rw [accept, bind_of_ok (check_apply kind c), if_pos (decide_eq_true hkind), bind_of_ok run]
  rfl

/-- A token of another kind is left. -/
theorem accept_of_ne {kind : TokenKind} (hkind : c.current.kind ≠ kind) :
    accept kind c = .ok false c := by
  rw [accept, bind_of_ok (check_apply kind c), if_neg (by simpa using hkind)]
  rfl

/-! ### Code -/

theorem modifyDraft_reports (f : Draft → Draft) : Reports whole (modifyDraft f) :=
  .change (fun _ _ => rfl) fun _ => ⟨rfl, rfl, rfl, rfl⟩

theorem emitByte_reports (byte : UInt8) : Reports whole (emitByte byte) :=
  .change (fun _ _ => rfl) fun _ => ⟨rfl, rfl, rfl, rfl⟩

theorem makeConstant_reports (value : Value) : Reports whole (makeConstant value) := by
  refine ⟨fun c earlier => ?_, fun c index c' run => ?_⟩
  · simp only [makeConstant, report_after]
    rw [show (c.after earlier).draft = c.draft from rfl]
    cases c.draft.chunk.addConstant? value <;> rfl
  · simp only [makeConstant] at run
    split at run <;> cases run
    · exact ⟨[], ⟨rfl, rfl, .inl rfl, List.prefix_rfl⟩, fun _ => rfl⟩
    · exact (Reports.report (fun _ _ => rfl) .tooManyConstants).takes c () _ rfl

/-! ### Objects -/

/-- An operation of the heap has nothing to do with tokens and reports. -/
theorem Reports.onHeap {x : CompileM α}
    (unseen : ∀ c earlier, x (c.after earlier) = onState (after earlier) (x c))
    (frame : ∀ c a c', x c = .ok a c' → c' = { c with heap := c'.heap }) : Reports whole x := by
  refine ⟨unseen, fun c a c' run => ?_⟩
  rw [frame c a c' run]
  exact ⟨[], ⟨rfl, rfl, .inl rfl, List.prefix_rfl⟩, fun _ => rfl⟩

theorem intern_reports (text : String) : Reports whole (intern text) := by
  refine .onHeap (fun c earlier => ?_) fun c h c' run => ?_
  · simp only [intern, after]
    cases Heap.intern text (roots c.held c.draft c.enclosing) c.heap <;> rfl
  · unfold intern at run
    split at run <;> cases run
    rfl

theorem allocateFunction_reports : Reports whole allocateFunction := by
  refine .onHeap (fun c earlier => ?_) fun c h c' run => ?_
  · simp only [allocateFunction, after]
    cases Heap.allocate (.function c.draft.finish) (roots c.held c.draft c.enclosing) c.heap <;> rfl
  · unfold allocateFunction at run
    split at run <;> cases run
    rfl

theorem enterFunction_reports (name : Handle) : Reports whole (enterFunction name) :=
  .change (fun _ _ => rfl) fun _ => ⟨rfl, rfl, rfl, rfl⟩

theorem leaveFunction_reports : Reports whole leaveFunction := by
  refine .change (fun c earlier => ?_) fun c => ?_
  · rw [show (c.after earlier).enclosing = c.enclosing from rfl]
    cases c.enclosing <;> rfl
  · cases c.enclosing <;> exact ⟨rfl, rfl, rfl, rfl⟩

/-- Looking a name up changes the drafts only. -/
theorem lookUp_reports (name : String) : Reports whole (lookUp name) := by
  refine ⟨fun _ _ => rfl, ?_⟩
  rintro c _ _ ⟨⟩
  exact ⟨[], ⟨rfl, rfl, .inl rfl, List.prefix_rfl⟩, fun _ => rfl⟩

/-! ### All steps -/

/-- All steps report as described. -/
theorem Reports.throughout : Throughout fun _ => Reports whole where
  pure := .pure
  throw := .throw
  bind := .bind
  read blind := .read fun c _ => blind c _
  advance := advance_reports
  complain _ := complain_reports _
  complainAhead _ := complainAhead_reports _
  emitByte := emitByte_reports
  intern := intern_reports
  modifyDraft _ _ _ _ := modifyDraft_reports _
  report := complain_reports
  reportAhead := complainAhead_reports
  edit := modifyDraft_reports
  makeConstant := makeConstant_reports
  lookUp := lookUp_reports
  enterFunction := enterFunction_reports
  allocateFunction := allocateFunction_reports
  leaveFunction := leaveFunction_reports

/-- Ending a panic keeps what has been reported. -/
theorem synchronize_reports : Reports true synchronize := by
  refine Reports.throughout.synchronize ⟨fun c earlier => ?_, ?_⟩
  · rw [modify_apply, modify_apply, reported_after]
    rfl
  · rintro c _ _ ⟨⟩
    exact ⟨[], ⟨rfl, rfl, .inl rfl, List.prefix_rfl⟩, nofun⟩

/-- The end of a declaration ends the panic. -/
theorem recover_reports :
    Reports true (do if (← get).panicking then synchronize : CompileM Unit) :=
  Reports.throughout.recover synchronize_reports

/-- Any statement and any declaration. -/
theorem statementAt_declarationAt_reports (steps : Nat) :
    Reports true (statementAt steps) ∧ Reports true (declarationAt steps) :=
  Reports.throughout.statementAt_declarationAt synchronize_reports steps

end Lox.Compiler
