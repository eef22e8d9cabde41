import Lox.Proofs.Compile.Emission
import Lox.Proofs.Compile.Reports

/-!
# Steps that eat what they are given

A compiler that faces tokens which it can use consumes them and is silent, unless it has to
complain about something that the grammar does not know of: a rule about names or functions, or a
limit. What it does after such a complaint does not matter, since the complaint stays the first
one.

Only the kinds of the tokens are looked at. A step that faults is not spoken about here.

## Main definitions

* `Issue.isRule` — what is no matter of the grammar.
* `Compiler.Faces` — the kinds of the tokens ahead of a compiler that has reported nothing.
* `Compiler.Eats` — a step that consumes tokens of given kinds.
* `Compiler.Idles` — a step that consumes none.
-/

namespace Lox

/-- Whether an issue is about a rule that the grammar does not express, or about a limit. -/
def Issue.isRule : Issue → Bool
  | .malformed _ | .expected _ | .invalidAssignmentTarget => false
  | .invalidNumber | .duplicateLocal | .localInOwnInitializer | .returnFromScript
  | .tooManyConstants | .tooManyLocals | .tooManyCaptures | .tooManyParameters
  | .tooManyArguments | .jumpTooLong | .loopTooLong => true

namespace Compiler

variable {c c' : Compiler} {α β : Type} {ks ls kinds : List TokenKind}
  {next next' : TokenKind → Prop} {kind : TokenKind}

/-! ### The first diagnostic -/

/-- The first diagnostic is about a rule or a limit. -/
def Blamed (c : Compiler) : Prop :=
  ∃ d ds, c.reported.toList = d :: ds ∧ d.issue.isRule = true

/-- The first diagnostic stays the first one. -/
theorem Blamed.later (blamed : c.Blamed) (stays : c.reported.toList <+: c'.reported.toList) :
    c'.Blamed := by
  obtain ⟨d, ds, hreported, hrule⟩ := blamed
  obtain ⟨more, hmore⟩ := stays
  exact ⟨d, ds ++ more, by rw [← hmore, hreported, List.cons_append], hrule⟩

/-- A compiler that reports puts the blame where it reports. -/
theorem Quiet.blamed (quiet : c.Quiet) (token : Token) {issue : Issue}
    (rule : issue.isRule = true) :
    (c.report token issue).Blamed := by
  refine ⟨.atToken token issue, [], ?_, rule⟩
  have hcalm : c.panicking = false := by rw [panicking, quiet.alarm]; rfl
  simp [report, hcalm, reported, quiet.diagnostics]

/-! ### The tokens ahead -/

/-- The kind of the first token. -/
def front (kinds : List TokenKind) : TokenKind := kinds.headD .endOfInput

/-- Nothing has been reported, and the tokens ahead are well formed and of the given kinds. -/
structure Faces (c : Compiler) (kinds : List TokenKind) : Prop where
  quiet : c.Quiet
  fed : c.Fed
  proper : ∀ t ∈ c.tokens.pending, t.kind ≠ .malformed
  kinds : c.ahead.map (·.kind) = kinds

/-- The token about to be consumed is the first one. -/
theorem Faces.current (faces : c.Faces kinds) : c.current.kind = front kinds := by
  rw [← faces.kinds, ahead]
  split
  · assumption
  · rfl

/-- Only the tokens and the reports matter. -/
theorem Faces.congr (faces : c.Faces kinds) (tokens : c'.tokens = c.tokens)
    (current : c'.current = c.current) (alarm : c'.alarm = c.alarm)
    (diagnostics : c'.diagnostics = c.diagnostics) : c'.Faces kinds := by
  refine ⟨⟨alarm ▸ faces.quiet.alarm, diagnostics ▸ faces.quiet.diagnostics⟩,
    faces.fed.congr tokens current, tokens ▸ faces.proper, ?_⟩
  rw [ahead, tokens, current]
  exact faces.kinds

/-- The next token is taken from those that are pending. -/
theorem faces_pull (quiet : c.Quiet) (final : c.tokens.final.kind = .endOfInput)
    (real : ∀ t ∈ c.tokens.pending, t.kind ≠ .endOfInput)
    (proper : ∀ t ∈ c.tokens.pending, t.kind ≠ .malformed) :
    (c.pull c.tokens.pending).Faces (c.tokens.pending.map (·.kind)) ∧
      (c.pull c.tokens.pending).previous = c.previous := by
  obtain ⟨halarm, hdiagnostics⟩ := quiet
  cases hpending : c.tokens.pending with
  | nil =>
      refine ⟨⟨⟨halarm, hdiagnostics⟩, ⟨final, fun t ht => ?_, fun _ => rfl⟩, fun t ht => ?_, ?_⟩,
        rfl⟩
      · cases ht
      · cases ht
      · simp [ahead, pull, final]
  | cons t pending =>
      rw [hpending] at real proper
      obtain ⟨ht, hothers⟩ := List.forall_mem_cons.mp real
      obtain ⟨hwell, hproper⟩ := List.forall_mem_cons.mp proper
      rw [pull, if_neg hwell]
      refine ⟨⟨⟨halarm, hdiagnostics⟩, ⟨final, hothers, fun hend => absurd hend ht⟩, hproper, ?_⟩,
        rfl⟩
      rw [ahead, if_neg ht]

/-- Consuming a token. -/
theorem Faces.advance (faces : c.Faces kinds) : ∃ c', Compiler.advance c = .ok () c' ∧
    c'.Faces kinds.tail ∧ c'.previous.kind = front kinds := by
  have htail : c.tokens.pending.map (·.kind) = kinds.tail := by
    rw [← faces.kinds, ahead]
    split
    · rename_i hend
      rw [faces.fed.drained hend]
      rfl
    · rfl
  have hquiet : ({ c with previous := c.current } : Compiler).Quiet :=
    ⟨faces.quiet.alarm, faces.quiet.diagnostics⟩
  obtain ⟨hfaces, hprevious⟩ := faces_pull hquiet faces.fed.final faces.fed.pending faces.proper
  exact ⟨_, rfl, htail ▸ hfaces, (congrArg Token.kind hprevious).trans faces.current⟩

/-! ### Steps -/

/-- A step that consumes tokens of given kinds if the token behind them allows it, and reports
nothing that the grammar could be blamed for. -/
structure Eats (ks : List TokenKind) (next : TokenKind → Prop) (x : CompileM α) : Prop where
  reports : Reports true x
  eats : ∀ {rest : List TokenKind} {c a c'}, c.Faces (ks ++ rest) → next (front rest) →
    x c = .ok a c' → c'.Blamed ∨ c'.Faces rest

/-- Any token. -/
abbrev Anything : TokenKind → Prop := fun _ => True

/-- A step that consumes no token. -/
abbrev Idles (x : CompileM α) : Prop := Eats [] Anything x

/-- What has been blamed stays blamed. -/
theorem Reports.blamed {x : CompileM α} {a : α} (reports : Reports true x) (blamed : c.Blamed)
    (run : x c = .ok a c') : c'.Blamed := by
  obtain ⟨taken, htakes, -⟩ := reports.takes c a c' run
  exact blamed.later htakes.reported

namespace Eats

theorem mono {x : CompileM α} (eats : Eats ks next x) (imp : ∀ kind, next' kind → next kind) :
    Eats ks next' x :=
  ⟨eats.reports, fun faces hnext run => eats.eats faces (imp _ hnext) run⟩

theorem throw (f : Fault) : Eats ks next (throw f : CompileM α) :=
  ⟨.throw f, fun _ _ run => by cases run⟩

theorem pure (a : α) : Idles (Pure.pure a : CompileM α) :=
  ⟨.pure a, fun faces _ run => by
    cases run
    exact .inr faces⟩

theorem bind {x : CompileM α} {f : α → CompileM β} (first : Eats ks next x)
    (others : ∀ a, Eats ls next' (f a))
    (fits : ∀ rest, next' (front rest) → next (front (ls ++ rest))) :
    Eats (ks ++ ls) next' (x >>= f) := by
  refine ⟨.bind first.reports fun a => (others a).reports, fun {rest _ b _} faces hnext run => ?_⟩
  obtain ⟨a, mid, hfirst, hothers⟩ := bind_eq_ok_iff.mp run
  rw [List.append_assoc] at faces
  rcases first.eats faces (fits rest hnext) hfirst with hblamed | hfaces
  · exact .inl ((others a).reports.blamed hblamed hothers)
  · exact (others a).eats hfaces hnext hothers

/-- A step that consumes no token in front of another one. -/
theorem idle {x : CompileM α} {f : α → CompileM β} (first : Idles x)
    (others : ∀ a, Eats ks next (f a)) : Eats ks next (x >>= f) :=
  first.bind others fun _ _ => trivial

/-- A step that looks at the token behind another one. -/
theorem close {x : CompileM α} {f : α → CompileM β} (first : Eats ks next x)
    (others : ∀ a, Eats [] next' (f a)) (fits : ∀ kind, next' kind → next kind) :
    Eats ks next' (x >>= f) := by
  have hboth := first.bind others fun _ hnext => fits _ hnext
  rwa [List.append_nil] at hboth

/-- A step that consumes no token behind another one. -/
theorem done {x : CompileM α} {f : α → CompileM β} (first : Eats ks next x)
    (others : ∀ a, Idles (f a)) : Eats ks next (x >>= f) :=
  first.close (fun a => (others a).mono fun _ _ => trivial) fun _ hnext => hnext

theorem read {f : Compiler → CompileM α} (same : ∀ c earlier, f (c.after earlier) = f c)
    (others : ∀ c, Eats ks next (f c)) : Eats ks next (get >>= f) :=
  ⟨.read same fun c => (others c).reports, fun {_ c _ _} faces hnext run =>
    (others c).eats faces hnext run⟩

theorem ite {p : Prop} [Decidable p] {x y : CompileM α} (yes : Eats ks next x)
    (no : Eats ks next y) : Eats ks next (if p then x else y) := by
  split
  · exact yes
  · exact no

theorem forM {γ : Type} {f : γ → CompileM PUnit} (each : ∀ a, Idles (f a)) (l : List γ) :
    Idles (l.forM f) := by
  induction l with
  | nil => exact .pure _
  | cons a l ih => exact .idle (each a) fun _ => ih

/-- A step that changes neither tokens nor reports. -/
theorem ofFrame {x : CompileM α} (reports : Reports true x)
    (frame : ∀ c a c', x c = .ok a c' → c'.tokens = c.tokens ∧ c'.current = c.current ∧
      c'.alarm = c.alarm ∧ c'.diagnostics = c.diagnostics) : Idles x := by
  refine ⟨reports, fun {rest c a c'} faces _ run => .inr ?_⟩
  obtain ⟨htokens, hcurrent, halarm, hdiagnostics⟩ := frame c a c' run
  exact faces.congr htokens hcurrent halarm hdiagnostics

/-- A token is consumed. -/
theorem advance {x : CompileM α} (others : Eats ks next x) :
    Eats (kind :: ks) next (do Compiler.advance; x) := by
  refine ⟨.bind Reports.throughout.advance fun _ => others.reports, fun faces hnext run => ?_⟩
  obtain ⟨mid, hadvance, hfaces, -⟩ := faces.advance
  rw [bind_of_ok hadvance] at run
  exact others.eats hfaces hnext run

/-- A token that is expected is there. -/
theorem expects (kind : TokenKind) (what : Expectation) :
    Eats [kind] Anything (Compiler.expect kind what) := by
  refine ⟨Reports.throughout.expect _ _, fun {_ c _ _} faces _ run => ?_⟩
  obtain ⟨mid, hadvance, hfaces, -⟩ := faces.advance
  have hkind : c.current.kind = kind := faces.current
  rw [Compiler.expect, bind_of_ok (check_apply kind c), if_pos (by simpa using hkind),
    hadvance] at run
  cases run
  exact .inr hfaces

theorem expect {what : Expectation} {x : CompileM α} (others : Eats ks next x) :
    Eats (kind :: ks) next (do Compiler.expect kind what; x) :=
  (expects kind what).bind (fun _ => others) fun _ _ => trivial

/-- A token that is looked for is there. -/
theorem accept {x y : CompileM α} (yes : Eats ks next x) (no : Reports true y) :
    Eats (kind :: ks) next (do if ← Compiler.accept kind then x else y) := by
  refine ⟨.bind (Reports.throughout.accept _) fun _ => .ite yes.reports no,
    fun {_ c _ _} faces hnext run => ?_⟩
  obtain ⟨mid, hadvance, hfaces, -⟩ := faces.advance
  have hkind : c.current.kind = kind := faces.current
  rw [bind_of_ok (accept_of_eq hkind hadvance)] at run
  exact yes.eats hfaces hnext run

/-- A token that is looked for is not there. -/
theorem skip {x y : CompileM α} (yes : Reports true x) (no : Eats ks next y)
    (other : ∀ rest, next (front rest) → front (ks ++ rest) ≠ kind) :
    Eats ks next (do if ← Compiler.accept kind then x else y) := by
  refine ⟨.bind (Reports.throughout.accept _) fun _ => .ite yes no.reports,
    fun {rest _ _ _} faces hnext run => ?_⟩
  have hother : _ ≠ kind := faces.current ▸ other rest hnext
  rw [bind_of_ok (accept_of_ne hother)] at run
  exact no.eats faces hnext run

/-- A question whose answer is known. -/
theorem ask {f : Bool → CompileM α} {answer : Bool} (reports : ∀ b, Reports true (f b))
    (same : ∀ rest, next (front rest) → decide (front (ks ++ rest) = kind) = answer)
    (eats : Eats ks next (f answer)) :
    Eats ks next (do
      let b ← Compiler.check kind
      f b) := by
  refine ⟨.bind (Reports.throughout.check _) reports, fun {rest c _ _} faces hnext run => ?_⟩
  have hanswer : decide (c.current.kind = kind) = answer := by
    rw [faces.current]
    exact same rest hnext
  rw [bind_of_ok (check_apply kind c), hanswer] at run
  exact eats.eats faces hnext run

/-- A token is there. -/
theorem check {x y : CompileM α} (yes : Eats ks next x) (no : Reports true y)
    (same : ∀ rest, next (front rest) → front (ks ++ rest) = kind) :
    Eats ks next (do if ← Compiler.check kind then x else y) := by
  have hreports : ∀ b : Bool, Reports true (if b = true then x else y) := fun _ =>
    .ite yes.reports no
  exact .ask hreports (fun rest hnext => decide_eq_true (same rest hnext)) yes

/-- A token is not there. -/
theorem miss {x y : CompileM α} (yes : Reports true x) (no : Eats ks next y)
    (other : ∀ rest, next (front rest) → front (ks ++ rest) ≠ kind) :
    Eats ks next (do if ← Compiler.check kind then x else y) := by
  have hreports : ∀ b : Bool, Reports true (if b = true then x else y) := fun _ =>
    .ite yes no.reports
  exact .ask hreports (fun rest hnext => decide_eq_false (other rest hnext)) no

/-- A token is not there, or nobody asks for it. -/
theorem pass {asked : Bool} {x y : CompileM α} (yes : Reports true x) (no : Eats ks next y)
    (other : ∀ rest, next (front rest) → asked = true → front (ks ++ rest) ≠ kind) :
    Eats ks next (do if asked && (← Compiler.check kind) then x else y) := by
  refine ⟨.bind (Reports.throughout.check _) fun _ => .ite yes no.reports,
    fun {rest c _ _} faces hnext run => ?_⟩
  have hother : (asked && decide (c.current.kind = kind)) = false := by
    cases asked with
    | false => rfl
    | true => simpa [faces.current] using other rest hnext rfl
  rw [bind_of_ok (check_apply kind c), hother] at run
  exact no.eats faces hnext run

end Eats

/-! ### Steps that consume no token -/

theorem complain_idles {issue : Issue} (rule : issue.isRule = true) : Idles (complain issue) :=
  ⟨Reports.throughout.report issue, fun faces _ run => by
    cases run
    exact .inl (faces.quiet.blamed _ rule)⟩

theorem complainAhead_idles {issue : Issue} (rule : issue.isRule = true) :
    Idles (complainAhead issue) :=
  ⟨Reports.throughout.reportAhead issue, fun faces _ run => by
    cases run
    exact .inl (faces.quiet.blamed _ rule)⟩

/-- Several complaints about rules. -/
theorem complaints_idle {issues : List Issue} (rules : ∀ issue ∈ issues, issue.isRule = true) :
    Idles (issues.forM complain) := by
  induction issues with
  | nil => exact .pure _
  | cons issue issues ih =>
      obtain ⟨hfirst, hothers⟩ := List.forall_mem_cons.mp rules
      exact .idle (complain_idles hfirst) fun _ => ih hothers

theorem codeSize_idles : Idles codeSize := .read (fun _ _ => rfl) fun _ => .pure _

theorem modifyDraft_idles (f : Draft → Draft) : Idles (modifyDraft f) :=
  .ofFrame (Reports.throughout.edit f) fun _ _ _ run => by
    cases run
    exact ⟨rfl, rfl, rfl, rfl⟩

theorem emitByte_idles (byte : UInt8) : Idles (emitByte byte) :=
  .ofFrame (Reports.throughout.emitByte byte) fun _ _ _ run => by
    cases run
    exact ⟨rfl, rfl, rfl, rfl⟩

theorem emit_idles (op : OpCode) : Idles (emit op) := emitByte_idles _

theorem emitWith_idles (op : OpCode) (operand : UInt8) : Idles (emitWith op operand) :=
  .idle (emit_idles op) fun _ => emitByte_idles operand

theorem emitReturn_idles : Idles emitReturn := .idle (emit_idles _) fun _ => emit_idles _

theorem makeConstant_idles (value : Value) : Idles (makeConstant value) := by
  refine ⟨Reports.throughout.makeConstant value, fun {rest c a c'} faces _ run => ?_⟩
  unfold makeConstant at run
  split at run <;> cases run
  · exact .inr (faces.congr rfl rfl rfl rfl)
  · exact .inl (faces.quiet.blamed _ rfl)

theorem emitConstant_idles (value : Value) : Idles (emitConstant value) :=
  .idle (makeConstant_idles value) fun _ => emitWith_idles _ _

theorem emitJump_idles (op : OpCode) : Idles (emitJump op) :=
  .idle (emit_idles op) fun _ => .idle (emitByte_idles _) fun _ => .idle (emitByte_idles _)
    fun _ => .idle codeSize_idles fun _ => .pure _

theorem patchJump_idles (operand : Nat) : Idles (patchJump operand) :=
  .idle codeSize_idles fun _ => .ite (modifyDraft_idles _) (complain_idles rfl)

theorem emitLoop_idles (target : Nat) : Idles (emitLoop target) :=
  .idle (emit_idles _) fun _ => .idle codeSize_idles fun _ => .ite
    (.idle (emitByte_idles _) fun _ => emitByte_idles _)
    (.idle (complain_idles rfl) fun _ => .idle (emitByte_idles _) fun _ => emitByte_idles _)

theorem intern_idles (text : String) : Idles (intern text) :=
  .ofFrame (Reports.throughout.intern text) fun c _ _ run => by
    unfold intern at run
    split at run <;> cases run
    exact ⟨rfl, rfl, rfl, rfl⟩

theorem finishFunction_idles : Idles finishFunction :=
  .ofFrame Reports.throughout.finishFunction fun c h c' run => by
    obtain ⟨_, mid, hreturn, hallocate⟩ := bind_eq_ok_iff.mp run
    cases hreturn
    dsimp only at hallocate
    split at hallocate <;> cases hallocate
    exact ⟨rfl, rfl, rfl, rfl⟩

theorem enterFunction_idles (name : Handle) : Idles (enterFunction name) :=
  .ofFrame (Reports.throughout.enterFunction name) fun _ _ _ run => by
    cases run
    exact ⟨rfl, rfl, rfl, rfl⟩

theorem leaveFunction_idles : Idles leaveFunction :=
  .ofFrame Reports.throughout.leaveFunction fun c _ _ run => by
    cases run
    dsimp only
    split <;> exact ⟨rfl, rfl, rfl, rfl⟩

/-! ### Variables -/

theorem inScope_idles : Idles inScope := .read (fun _ _ => rfl) fun _ => .pure _

theorem openScope_idles : Idles openScope := modifyDraft_idles _

theorem closeScope_idles : Idles closeScope :=
  .idle (modifyDraft_idles _) fun _ => .read (fun _ _ => rfl) fun _ =>
    .idle (.forM (fun _ => emit_idles _) _) fun _ => modifyDraft_idles _

theorem nameConstant_idles (name : String) : Idles (nameConstant name) :=
  .idle (intern_idles name) fun _ => makeConstant_idles _

theorem addLocal_idles (name : String) : Idles (addLocal name) :=
  .read (fun _ _ => rfl) fun _ => .ite (complain_idles rfl) (modifyDraft_idles _)

theorem declareVariable_idles : Idles declareVariable :=
  .idle inScope_idles fun _ => .ite
    (.read (fun _ _ => rfl) fun _ => .ite
      (.idle (complain_idles rfl) fun _ => addLocal_idles _) (addLocal_idles _))
    (.pure _)

theorem markInitialized_idles : Idles markInitialized :=
  .idle inScope_idles fun _ => .ite (modifyDraft_idles _) (.pure _)

theorem defineVariable_idles (global : UInt8) : Idles (defineVariable global) :=
  .idle inScope_idles fun _ => .ite markInitialized_idles (emitWith_idles _ _)

/-- The name of a variable is there. -/
theorem variableName_eats (what : Expectation) :
    Eats [.identifier] Anything (variableName what) :=
  .expect (.idle declareVariable_idles fun _ => .idle inScope_idles fun _ => .ite (.pure _)
    (.read (fun _ _ => rfl) fun _ => nameConstant_idles _))

/-- What is wrong with a mention of a local is a rule. -/
theorem isRule_of_mentionIssues {l : Local} :
    ∀ issue ∈ Draft.mentionIssues l, issue.isRule = true := by
  unfold Draft.mentionIssues
  split <;> simp [Issue.isRule]

theorem isRule_of_addCapture {d : Draft} {wanted : Capture} :
    ∀ issue ∈ (d.addCapture wanted).2.2, issue.isRule = true := by
  unfold Draft.addCapture
  split
  · simp
  · split <;> simp [Issue.isRule]

/-- What is wrong with a captured variable is a rule or a limit. -/
theorem isRule_of_capture? {name : String} {d : Draft} {outer : List Draft} :
    ∀ issue ∈ (d.capture? name outer).issues, issue.isRule = true := by
  induction outer generalizing d with
  | nil => simp [Draft.capture?]
  | cons o others ih =>
      unfold Draft.capture?
      split
      · exact List.forall_mem_append.mpr ⟨isRule_of_mentionIssues, isRule_of_addCapture⟩
      · dsimp only
        split
        · exact ih
        · exact List.forall_mem_append.mpr ⟨ih, isRule_of_addCapture⟩

theorem resolveCapture_idles (name : String) : Idles (resolveCapture name) := by
  refine ⟨Reports.throughout.resolveCapture name, fun {rest c a c'} faces _ run => ?_⟩
  have hissues : Idles (do
      (c.draft.capture? name c.enclosing).issues.forM complain
      return (c.draft.capture? name c.enclosing).index) :=
    .idle (complaints_idle isRule_of_capture?) fun _ => .pure _
  have hfaces : ({ c with
      draft := (c.draft.capture? name c.enclosing).draft
      enclosing := (c.draft.capture? name c.enclosing).enclosing } : Compiler).Faces rest :=
    faces.congr rfl rfl rfl rfl
  exact hissues.eats hfaces trivial run

theorem resolve_idles (name : String) : Idles (resolve name) := by
  refine .read (fun _ _ => rfl) fun c => ?_
  split
  · exact .idle (complaints_idle isRule_of_mentionIssues) fun _ => .pure _
  · refine .idle (resolveCapture_idles name) fun index => ?_
    split
    · exact .pure _
    · exact .idle (nameConstant_idles name) fun _ => .pure _

end Compiler

end Lox
