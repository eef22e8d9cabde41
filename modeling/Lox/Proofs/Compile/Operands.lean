import Lox.Proofs.Compile.Operands.Names
import Lox.Proofs.Compile.Totality

/-!
# Operands of one byte

A function has at most 256 constants, 256 locals alive at once and 256 captured variables, since an
operand of one byte tells no more apart; and it has at most 255 parameters, since a call counts its
arguments in one byte. Each limit is looked at in a place of its own, and the number is cast to a
byte in another. `compileLogged` writes both down, and here they are put side by side: a cast loses
nothing in a program that is accepted, and whatever goes beyond a limit is reported, unless an
earlier error withholds it.

Every step is followed by `Logs`, one combinator for each piece of it. Arguments are the exception:
only the first that is too many is reported, so the number of those before it goes into the
induction (`Crowded`).

## Main results

* `expressionAt_logs`, `program_logs` — a step with a log is the step without it.
* `operands_exact` — whole programs.
-/

namespace Lox

namespace Compiler

variable {c c' : Compiler} {whole : Bool}

/-! ### Steps that are followed one by one -/

/-- A parameter that is too many is reported at the token ahead. -/
theorem countParameter_logs : Logs whole Logged.countParameter countParameter := by
  refine .of_run fun c => ?_
  by_cases hfull : c.draft.arity = Draft.maxArity
  · have hrun : countParameter c = .ok () (c.report c.current .tooManyParameters) := by
      rw [countParameter, bind_of_ok (get_apply c), if_pos hfull]
      rfl
    refine ⟨(), [.demand .parameters c.draft.arity c.current c.alarm], _, ?_, hrun,
      fun fits => .beyond fits c.current (Nat.le_of_eq hfull.symm)⟩
    rw [Logged.countParameter, run_read]
    exact run_bind_of_ok rfl (run_lift_of_ok hrun)
  · have hrun : countParameter c =
        .ok () { c with draft := { c.draft with arity := c.draft.arity + 1 } } := by
      rw [countParameter, bind_of_ok (get_apply c), if_neg hfull]
      rfl
    refine ⟨(), [.demand .parameters c.draft.arity c.current c.alarm], _, ?_, hrun, fun fits => ?_⟩
    · rw [Logged.countParameter, run_read]
      exact run_bind_of_ok rfl (run_lift_of_ok hrun)
    · have hdraft := fits _ (List.mem_cons_self ..)
      have hroom : c.draft.arity < 255 := Nat.lt_of_le_of_ne hdraft.arity hfull
      exact (Kept.within fits c.current hroom).trans
        (.withDraft fits ⟨hdraft.constants, hdraft.locals, hdraft.captures, hroom⟩)

/-- Whatever is not limited writes nothing. -/
theorem logger_imitates : Imitates logger (fun _ => Plain whole) fun _ => Logs whole where
  closed := Plain.closed
  lift := .lift
  pure := .pure
  bind := .bind
  read _ := .read
  makeConstant := makeConstant_logs
  addLocal := addLocal_logs
  resolve := resolve_logs
  closeScope := .lift Plain.closed.closeScope
  countParameter := countParameter_logs

/-- Whatever is logged, it can be forgotten. -/
theorem logger_forgets : Imitates logger (fun _ _ => True) fun _ x y => x.forget = y where
  closed := by constructor <;> intros <;> trivial
  lift {_ y} _ := forget_lift y
  pure _ := rfl
  bind {_ _ x y f g} first rest := by
    rw [forget_bind, first]
    exact bind_congr rest
  read {_ f g} _ rest := by
    rw [forget_bind]
    exact bind_congr rest
  makeConstant value := (show Logs true _ _ from makeConstant_logs value).same
  addLocal name := (show Logs true _ _ from addLocal_logs name).same
  resolve name := (show Logs true _ _ from resolve_logs name).same
  closeScope := forget_lift _
  countParameter := (show Logs true _ _ from countParameter_logs).same

/-! ### Calls -/

section Calls

variable {parse : Precedence → LogM Unit} {parse' : Precedence → CompileM Unit}
  {expression : LogM Unit} {expression' : CompileM Unit} {steps count : Nat}

theorem forget_countArgument (count : Nat) :
    (Logged.countArgument count).forget = countArgument count := by
  unfold Logged.countArgument countArgument
  split <;> rfl

/-- Beyond the last argument that is allowed there is a panic. -/
def Crowded (count : Nat) (c : Compiler) : Prop := 255 < count → c.panicking = true

theorem crowded_zero (c : Compiler) : Crowded 0 c := fun hmany => absurd hmany (by decide)

/-- The first argument that is too many is reported, and those behind it are withheld. -/
theorem countArgument_kept {log : List Entry} (fits : c.Fits) (crowded : Crowded count c)
    (run : (Logged.countArgument count).run c = .ok ((), log) c') :
    Kept false c log c' ∧ Crowded (count + 1) c' := by
  unfold Logged.countArgument countArgument at run
  split at run
  · rename_i hlast
    cases run
    exact ⟨.beyond fits c.previous (Nat.le_of_eq hlast.symm), fun _ => panicking_report c _ _⟩
  · rename_i hother
    cases run
    rcases Nat.lt_or_gt_of_ne hother with hroom | hmany
    · refine ⟨.within fits c.previous hroom, fun hmany => ?_⟩
      exact absurd (Nat.lt_of_lt_of_le hmany hroom) (Nat.lt_irrefl 255)
    · have hpanicking : c.panicking = true := crowded hmany
      exact ⟨.withheld fits c.previous hpanicking, fun _ => hpanicking⟩

/-- The arguments of a call, and how many there are. -/
theorem arguments_kept (value : Logs false expression expression') {log : List Entry} {n : Nat}
    (fits : c.Fits) (crowded : Crowded count c)
    (run : (logger.arguments expression steps count).run c = .ok (n, log) c') :
    Kept false c log c' ∧ Crowded n c' := by
  induction steps generalizing c count log with
  | zero => cases run
  | succ steps ih =>
      obtain ⟨_, log₁, c₁, rest₁, hvalue, hrest₁, rfl⟩ := run_bind_ok_iff.mp run
      obtain ⟨_, log₂, c₂, rest₂, hcount, hrest₂, rfl⟩ := run_bind_ok_iff.mp hrest₁
      obtain ⟨more, log₃, c₃, log₄, hmore, hrest₃, rfl⟩ := run_bind_ok_iff.mp hrest₂
      have hkept₁ := value.kept c _ log₁ c₁ fits hvalue
      obtain ⟨hkept₂, hcrowded₂⟩ := countArgument_kept hkept₁.fits
        (fun hmany => hkept₁.panicking rfl (crowded hmany)) hcount
      have haccept : Logs false (liftM (accept .comma) : LogM Bool) (accept .comma) :=
        .lift (Plain.closed.accept _)
      have hkept₃ := haccept.kept c₂ more log₃ c₃ hkept₂.fits hmore
      have hcrowded₃ : Crowded (count + 1) c₃ := fun hmany => hkept₃.panicking rfl (hcrowded₂ hmany)
      cases more with
      | false =>
          cases hrest₃
          exact ⟨hkept₁.trans (hkept₂.trans (hkept₃.trans (.same hkept₃.fits rfl rfl))), hcrowded₃⟩
      | true =>
          obtain ⟨hkept₄, hcrowded₄⟩ := ih hkept₃.fits hcrowded₃ hrest₃
          exact ⟨hkept₁.trans (hkept₂.trans (hkept₃.trans hkept₄)), hcrowded₄⟩

/-- The number of arguments is kept by its cast, unless there are too many. -/
theorem emitCall_kept {log : List Entry} (fits : c.Fits) (crowded : Crowded count c)
    (run : (Logged.emitCall count).run c = .ok ((), log) c') : Kept false c log c' := by
  obtain ⟨_, log₁, c₁, log₂, hnote, hemit, rfl⟩ := run_bind_ok_iff.mp run
  cases hnote
  refine Kept.trans (.cast fits fun hnone => ?_)
    ((Logs.lift (Plain.closed.emitWith _ _)).kept _ _ _ _ fits
    hemit)
  have hfew : count ≤ 255 :=
    Nat.le_of_not_lt fun hmany => reported_ne_nil (crowded hmany) hnone
  rw [Nat.min_eq_left (show count ≤ Draft.maxArity from hfew)]
  exact toNat_ofNat_of_lt (Nat.lt_succ_of_le hfew)

/-- The number of arguments is cast once they have all been compiled. -/
theorem callOperator_logs (value : Logs false expression expression') :
    Logs false (logger.callOperator expression steps) (callOperator expression' steps) := by
  have hparen : Logs false (liftM (expect .rightParen .parenAfterArguments) : LogM Unit)
      (expect .rightParen .parenAfterArguments) := .lift (Plain.closed.expect _ _)
  -- the end of a call, after so many arguments
  have hkept : ∀ c n log c', c.Fits → Crowded n c →
      (do expect .rightParen .parenAfterArguments
          Logged.emitCall n : LogM Unit).run c = .ok ((), log) c' → Kept false c log c' := by
    intro c n log c' fits crowded run
    obtain ⟨_, log₁, c₁, log₂, hexpect, hcall, rfl⟩ := run_bind_ok_iff.mp run
    have hkept₁ := hparen.kept c _ log₁ c₁ fits hexpect
    exact hkept₁.trans (emitCall_kept hkept₁.fits
      (fun hmany => hkept₁.panicking rfl (crowded hmany)) hcall)
  refine ⟨logger_forgets.callOperator forget_countArgument (fun _ => rfl) value.same,
    fun c _ log c' fits run => ?_⟩
  obtain ⟨none, log₁, c₁, rest, hcheck, hrest, rfl⟩ := run_bind_ok_iff.mp run
  have hnone : Logs false (liftM (check .rightParen) : LogM Bool) (check .rightParen) :=
    .lift (Plain.closed.check _)
  have hkept₁ := hnone.kept c none log₁ c₁ fits hcheck
  refine hkept₁.trans ?_
  cases none with
  | true =>
      simp only [if_true] at hrest
      obtain ⟨n, log₂, c₂, log₃, hzero, hend, rfl⟩ := run_bind_ok_iff.mp hrest
      cases hzero
      exact hkept c₁ 0 log₃ c' hkept₁.fits (crowded_zero c₁) hend
  | false =>
      simp only [Bool.false_eq_true, if_false] at hrest
      obtain ⟨n, log₂, c₂, log₃, harguments, hend, rfl⟩ := run_bind_ok_iff.mp hrest
      obtain ⟨hkept₂, hcrowded⟩ := arguments_kept value hkept₁.fits (crowded_zero c₁) harguments
      exact hkept₂.trans (hkept c₂ n log₃ c' hkept₂.fits hcrowded hend)

theorem logger_operators : Operators logger fun _ => Logs false where
  call value _ := callOperator_logs value
  and := logger_imitates.andOperator logger_jumps
  or := logger_imitates.orOperator logger_jumps

end Calls

/-! ### Programs -/

/-- Any expression. A panic inside of it goes on until its end. -/
theorem expressionAt_logs (steps : Nat) (least : Precedence) :
    Logs false (logger.expressionAt steps least) (expressionAt steps least) :=
  logger_imitates.expressionAt logger_operators steps least

theorem logger_statements : Statements logger fun _ => Logs whole where
  choice := logger_imitates.ifStatement logger_jumps
  loop := logger_imitates.whileStatement logger_jumps
  rounds := logger_imitates.forStatement logger_jumps
  body block _ := logger_imitates.functionBody logger_jumps block

theorem program_logs (steps : Nat) : Logs true (logger.program steps) (program steps) :=
  logger_imitates.program logger_statements synchronize_plain id
    (fun steps => (expressionAt_logs steps .assignment).loosen) (.lift finishFunction_plain) steps

/-- Nothing is limited before the start. -/
theorem start_fits (tokens : TokenStream) (held : List Handle) (heap : Heap) :
    (start tokens held heap).Fits := by
  intro d hd
  obtain rfl := List.mem_singleton.mp hd
  exact ⟨Nat.zero_le _, show 1 ≤ 256 by decide, Nat.zero_le _, Nat.zero_le _⟩

/-- A whole program, with a log. -/
theorem kept_of_run {tokens : TokenStream} {held : List Handle} {heap : Heap} {steps : Nat}
    {script : Handle} {log : List Entry}
    (run : (logger.program steps).run (start tokens held heap) = .ok (script, log) c) :
    c.reported.toList.filter (·.issue.isLimit) = log.filterMap Entry.complaint? ∧
      log.filterMap Entry.alarm? ⊆ c.reported.toList ∧
      (c.reported.toList = [] → ∀ entry ∈ log, entry.Sound) := by
  have hkept := (program_logs steps).kept _ _ _ _ (start_fits tokens held heap) run
  exact ⟨hkept.excesses, hkept.alarms, hkept.sound⟩

end Compiler

variable {tokens : TokenStream} {held : List Handle} {heap : Heap}

/-- Forgetting the log gives the compiler. -/
theorem forget_compileLogged :
    Prod.fst <$> compileLogged tokens held = compile tokens held := by
  funext heap
  have hsame := congrFun (Compiler.program_logs (tokens.pending.length + 2)).same
    (.start tokens held heap)
  change EStateM.map Prod.fst (compileLogged tokens held) heap = _
  rw [EStateM.map, compileLogged, compile]
  cases hrun : (Compiler.logger.program (tokens.pending.length + 2)).run
      (.start tokens held heap) with
  | ok result c =>
      rw [← hsame, Compiler.forget_of_ok hrun]
  | error fault c =>
      have hforget : (Compiler.logger.program (tokens.pending.length + 2)).forget
          (.start tokens held heap) = .error fault c := by
        rw [LogM.forget, map_eq_pure_bind, bind_of_error hrun]
      rw [← hsame, hforget]

/-- An outcome of the compiler, with the log that belongs to it. -/
theorem compileLogged_of_ok {result : Except (List Diagnostic) Handle} {heap' : Heap}
    (run : compile tokens held heap = .ok result heap') :
    ∃ log, compileLogged tokens held heap = .ok (result, log) heap' := by
  rw [← forget_compileLogged, map_eq_pure_bind] at run
  obtain ⟨⟨result', log⟩, mid, hlogged, hpure⟩ := bind_eq_ok_iff.mp run
  cases hpure
  exact ⟨log, hlogged⟩

/-- What the log of a compilation says. -/
theorem compileLogged_kept {result : Except (List Diagnostic) Handle} {log : List Entry}
    {heap' : Heap} (run : compileLogged tokens held heap = .ok (result, log) heap') :
    (∀ script, result = .ok script → ∀ entry ∈ log, entry.Sound) ∧
      ∀ ds, result = .error ds →
        ds.filter (·.issue.isLimit) = log.filterMap Entry.complaint? ∧
          log.filterMap Entry.alarm? ⊆ ds := by
  unfold compileLogged at run
  split at run
  · rename_i script log' c hrun
    obtain ⟨hexcesses, halarms, hsound⟩ := Compiler.kept_of_run hrun
    cases run
    by_cases hclean : c.reported.isEmpty = true
    · rw [if_pos hclean]
      have hnone : c.reported.toList = [] := by simpa using hclean
      exact ⟨fun _ _ => hsound hnone, nofun⟩
    · rw [if_neg hclean]
      refine ⟨nofun, ?_⟩
      rintro _ ⟨⟩
      exact ⟨hexcesses, halarms⟩
  · cases run

/-- Operands of one byte are exact, and so are the limits, whatever the tokens are. If a program is
accepted, then every cast keeps its number, and every demand is within its limit. If it is rejected,
then what is said about limits are the complaints about the demands that go beyond them, one for
each demand that no earlier error withholds; and such an error is among the diagnostics, too. -/
theorem operands_exact (final : tokens.final.kind = .endOfInput) (valid : heap.Valid)
    (live : ∀ h ∈ held, heap.Live h) :
    Prod.fst <$> compileLogged tokens held = compile tokens held ∧ ∃ heap',
      (∃ script log, compileLogged tokens held heap = .ok (.ok script, log) heap' ∧
        ∀ entry ∈ log, entry.Sound) ∨
      (∃ ds log, compileLogged tokens held heap = .ok (.error ds, log) heap' ∧ ds ≠ [] ∧
        ds.filter (·.issue.isLimit) = log.filterMap Entry.complaint? ∧
          log.filterMap Entry.alarm? ⊆ ds) ∨
      (compile tokens held heap = .error .overflow heap' ∧
        maxWord < (heap.bytes + tokens.cost) * heap.policy.growth) ∨
      (compile tokens held heap = .error .outOfRange heap' ∧
        ∃ t ∈ tokens.pending, ¬ t.Readable) := by
  refine ⟨forget_compileLogged, ?_⟩
  obtain ⟨-, heap', ⟨script, hrun⟩ | ⟨d, ds, hrun⟩ | hfault⟩ :=
    compile_cases final valid live
  · obtain ⟨log, hlogged⟩ := compileLogged_of_ok hrun
    exact ⟨heap', .inl ⟨script, log, hlogged, (compileLogged_kept hlogged).1 script rfl⟩⟩
  · obtain ⟨log, hlogged⟩ := compileLogged_of_ok hrun
    obtain ⟨hexcesses, halarms⟩ := (compileLogged_kept hlogged).2 _ rfl
    exact ⟨heap', .inr (.inl ⟨_, log, hlogged, List.cons_ne_nil d ds, hexcesses, halarms⟩)⟩
  · exact ⟨heap', .inr (.inr hfault)⟩

/-- A call with so many arguments. -/
def crowd (count : Nat) : TokenStream :=
  .ofList ([⟨.identifier, "f", 1⟩, ⟨.leftParen, "(", 1⟩, ⟨.nilWord, "nil", 1⟩] ++
    (List.replicate (count - 1) [⟨.comma, ",", 1⟩, ⟨.nilWord, "nil", 1⟩]).flatten ++
    [⟨.rightParen, ")", 1⟩, ⟨.semicolon, ";", 1⟩])

/-- What a compilation is rejected for. -/
def rejection? (result : EStateM.Result Fault Heap (Except (List Diagnostic) Handle)) :
    Option (List Diagnostic) :=
  match result with
  | .ok (.error ds) _ => some ds
  | _ => none

/-- A call with one argument too many, which is the one thing that the log complains about. -/
theorem operands_exact_crowd :
    ∃ log heap', compileLogged (crowd 256) [] (.empty {}) =
        .ok (.error [⟨1, .atToken "nil", .tooManyArguments⟩], log) heap' ∧
      log.filterMap Entry.complaint? = [⟨1, .atToken "nil", .tooManyArguments⟩] := by
  have hrejected : rejection? (compile (crowd 256) [] (.empty {})) =
      some [⟨1, .atToken "nil", .tooManyArguments⟩] := by decide +kernel
  obtain ⟨hforget, heap', hcases⟩ := @operands_exact (crowd 256) [] (.empty {}) rfl
    (Heap.valid_empty {}) fun h hh => by cases hh
  have hresult : ∀ result log, compileLogged (crowd 256) [] (.empty {}) =
      .ok (result, log) heap' → compile (crowd 256) [] (.empty {}) = .ok result heap' :=
    fun result log run => by rw [← hforget, map_eq_pure_bind, bind_of_ok run]; rfl
  rcases hcases with ⟨script, log, hrun, -⟩ | ⟨ds, log, hrun, -, hexcesses, -⟩ |
    ⟨hrun, -⟩ | ⟨hrun, -⟩
  · rw [hresult _ _ hrun] at hrejected
    cases hrejected
  · rw [hresult _ _ hrun] at hrejected
    cases hrejected
    exact ⟨log, heap', hrun, hexcesses.symm⟩
  · rw [hrun] at hrejected
    cases hrejected
  · rw [hrun] at hrejected
    cases hrejected

/-- One argument less is no more than a call can pass. -/
example : rejection? (compile (crowd 255) [] (.empty {})) = none := by decide +kernel

end Lox
