import Lox.Proofs.Evaluation.Programs
import Lox.Proofs.Session.Sharing
import Lox.Proofs.Syntax.Identifiers
import Lox.Proofs.Syntax.Unambiguous
import Lox.Proofs.Token.Joining

/-!
# Compilation preserves meaning

A source that is accepted has one syntax tree, and what the machine does with the source is what the
evaluator does with the tree: both end in the same way, print the same and leave the same globals.
This holds for programs in which no function mentions a local variable of a function around it, and
for machines that have been given such programs only. The evaluator has no stack, so a run that
raises a stack overflow has no counterpart.

The machine is compared with the reference machine, which runs the same code, and the code of the
reference machine with the tree.

## Main definitions

* `Session.Concludes` — how an evaluation ends, and how a source does.
* `Session.Shows` — a machine and a world in which the same has happened.
* `Session.Parallel` — a machine and a world that have been given the same programs.

## Main results

* `Parallel.follows` — the world of the evaluator is that of the machine.
* `meaning_preserved` — the machine ends a source as the evaluator ends its tree, and the other way
  round.
-/

namespace Lox

open Machine (Mirrors)

/-- The run of a source has raised a stack overflow. -/
def Outcome.Overflows (o : Outcome) : Prop := ∃ trace, o = .failed ⟨.stackOverflow, trace⟩

namespace Session

variable {m n : Machine} {r s : Reference} {π : Picture} {t : Template} {constants : List Constant}
  {w w' : Eval.World} {p : Printout} {source : String} {program : List Stmt} {budget fuel : Nat}
  {o : Outcome} {x : EStateM.Result Eval.Stop Eval.World Unit}

/-- An evaluation ends as a source does, in a world. -/
inductive Concludes : EStateM.Result Eval.Stop Eval.World Unit → Outcome → Eval.World → Prop
  | finished {w : Eval.World} : Concludes (.ok () w) .finished w
  | failed {cause : Cause} {trace : List TraceLine} {w : Eval.World} :
      Concludes (.error (.raised cause) w) (.failed ⟨cause, trace⟩) w

/-- A machine shows what has happened in a world since it had a given printout. The lines that have
been printed are the same. The globals are the same, where callables are paired one to one with
those of the world, and functions have code of the trees that they have there. -/
structure Shows (before : Printout) (n : Machine) (w : Eval.World) : Prop where
  printout : n.printout = w.lines.foldl Printout.writeLine before
  globals : ∃ π : Picture, π.OneToOne ∧
    (∀ h id, π.callable h id → ∃ c k o, w.callables[id]? = some c ∧ n.heap.object? h = some o ∧
      Eval.Embodies c k ∧ Embodies n.heap π o k) ∧
    ∀ name, Option.Rel (Denotes n.heap π) (global? n name) (w.globals name)
  shown : ∀ name, shown n name = (w.globals name).map fun d => .ok (w.display d)
  hostCalls : n.hostCalls = w.hostCalls

/-- A machine and a world that have been given the same programs and the same host functions. In no
program does a function mention a local variable of a function around it, and none has raised a
stack overflow. -/
inductive Parallel : Machine → Eval.World → Prop
  | begin {settings : Settings} {clock : Nat → Float} {m : Machine} :
      Session.begin settings clock = .ok () m → Parallel m (.new clock)
  | bind {m n : Machine} {w : Eval.World} {name : String} {run : HostFunction} : Parallel m w →
      run.Equivariant → Session.bind name run m = .ok () n → Parallel n (w.bind name run)
  | ran {m n : Machine} {w w' : Eval.World} {budget fuel : Nat} {source : String} {o : Outcome}
      {program : List Stmt} : Parallel m w → Ran budget source m o n →
      Grammar.Declarations (TokenStream.ofSource source).pending program → Stmt.Apart program →
      ¬ o.Overflows → Concludes (Eval.program fuel program { w with lines := [] }) o w' →
        Parallel n w'
  | rejected {m n : Machine} {w : Eval.World} {budget : Nat} {source : String}
      {ds : List Diagnostic} : Parallel m w → Ran budget source m (.rejected ds) n → Parallel n w
  | collect {m n : Machine} {w : Eval.World} : Parallel m w → Session.collect m = .ok () n →
      Parallel n w
  | takeOutput {m n : Machine} {w : Eval.World} {text : String} : Parallel m w →
      Session.takeOutput m = .ok text n → Parallel n w
  | takeDiagnostics {m n : Machine} {w : Eval.World} {text : String} : Parallel m w →
      Session.takeDiagnostics m = .ok text n → Parallel n w

/-! ### Worlds and machines -/

/-- A machine shows what has happened in a world if its reference machine agrees with the world. -/
theorem shows_of_mirrors (mirrors : Mirrors π n s) (agrees : Eval.Agrees p w s) : Shows p n w := by
  refine ⟨mirrors.printout.symm.trans agrees.printout, ⟨π, mirrors.oneToOne, fun h id hid => ?_,
    fun name => agrees.globals ▸ global?_rel mirrors name⟩, fun name => ?_,
    mirrors.hostCalls.symm.trans agrees.hostCalls⟩
  · obtain ⟨o, k, ho, hk, hembodies⟩ := mirrors.callables h id hid
    have hrel := agrees.callables id
    rw [hk] at hrel
    generalize w.callables[id]? = found at hrel ⊢
    cases hrel with
    | some hembodies' => exact ⟨_, k, o, rfl, ho, hembodies', hembodies⟩
  · have hshown := (accords_of_mirrors mirrors).shown name
    rw [← agrees.globals]
    generalize Session.shown n name = answer at hshown ⊢
    generalize s.globals name = d at hshown ⊢
    cases hshown with
    | none => rfl
    | some h =>
        obtain ⟨text, rfl, htext⟩ := h
        rw [Option.map_some, Eval.display_of_agrees agrees htext]

/-- The names of a source are not empty. So what is asked of the variables of its program is all
that is asked of them. -/
theorem plain_of_apart (tree : Grammar.Declarations (TokenStream.ofSource source).pending program)
    (apart : Stmt.Apart program) : Stmt.MentionsAll Plain false [] [] program :=
  have named : Grammar.Identifies (· ≠ "") (TokenStream.ofSource source).pending :=
    worded_ofSource source
  Stmt.MentionsAll.and (fun _ _ _ hname hown => ⟨hname, hown⟩)
    (Grammar.declarations_mention tree named) apart

/-! ### Programs -/

/-- The runs of a script that has been compiled tally with the evaluation of its tree. -/
theorem Compiles.tallies (compiles : Compiles source m t constants) (idle : m.Idle)
    (mirrors : Mirrors π m r) (agrees : Eval.Agrees p w r)
    (tree : Grammar.Declarations (TokenStream.ofSource source).pending program)
    (apart : Stmt.Apart program) (fuel : Nat) :
    Eval.Tallies p fuel (fun budget => Reference.runScript budget t constants r)
      (Eval.program fuel program w) := by
  obtain ⟨program', htree, hscript⟩ := compiles.encoded idle
  obtain rfl := tree.unique htree
  refine Eval.runScript_tallies hscript (plain_of_apart tree apart) agrees ?_ ?_ fuel
  · exact List.forall₂_nil_left_iff.mp (idle.frames ▸ mirrors.frames)
  · exact Array.eq_empty_of_size_eq_zero (by rw [mirrors.size, idle.stack]; rfl)

/-- An evaluation with enough fuel ends as a run that has ended. -/
theorem concludes_of_tallies
    (tallies : Eval.Tallies p fuel (fun budget => Reference.runScript budget t constants r) x)
    (run : Reference.runScript budget t constants r = .ok o s) (ended : o ≠ .paused)
    (calm : ¬ o.Overflows) (enough : budget + 1 < fuel ∨ ∀ w, x ≠ .error .exhausted w) :
    ∃ w', Concludes x o w' ∧ Eval.Agrees p w' s := by
  have hended : ∀ u, Reference.runScript budget t constants r ≠ .ok .paused u := by
    rw [run]
    rintro u ⟨⟩
    exact ended rfl
  -- a run with another budget that is not paused is the same run
  have hsame : ∀ {budget' : Nat} {result : EStateM.Result Fault Reference Outcome},
      Reference.runScript budget' t constants r = result → (∀ u, result ≠ .ok .paused u) →
        result = .ok o s := fun h hnot =>
    h.symm.trans ((Reference.runScript_unique hended (.inr (h ▸ hnot))).trans run)
  cases tallies with
  | finished hrun hagrees =>
      cases hsame hrun nofun
      exact ⟨_, .finished, hagrees⟩
  | failed hrun hagrees =>
      cases hsame hrun nofun
      exact ⟨_, .failed, hagrees⟩
  | @paused budget' _ _ hrun hle =>
      rcases enough with hlt | hnot
      · have hsmall : budget ≤ budget' := by omega
        cases hrun.symm.trans ((Reference.runScript_unique hended (.inl hsmall)).trans run)
        exact absurd rfl ended
      · exact absurd rfl (hnot _)
  | overflow hrun =>
      cases hsame hrun nofun
      exact absurd ⟨_, rfl⟩ calm
  | stuck hrun => cases hsame hrun nofun

/-! ### Histories -/

/-- Something has been made known to a world and to a reference machine. -/
theorem agrees_bind (agrees : Eval.Agrees p w r) (name : String) (run : HostFunction) :
    Eval.Agrees p (w.bind name run) (r.bind name run) :=
  { agrees.make (.native { name, run }) with
    globals := by
      simp only [Reference.bind, Eval.World.bind, agrees.size, agrees.globals] }

/-- A new machine and a new world. -/
theorem agrees_new (settings : Settings) (clock : Nat → Float) :
    Eval.Agrees { capacity := settings.outputCapacity } (.new clock) (.new settings clock) :=
  agrees_bind { callables := fun i => by simp, globals := rfl, printout := rfl, clock := rfl
                hostCalls := rfl } "clock" clockFunction

/-- What has been printed is set aside. -/
theorem agrees_afresh (agrees : Eval.Agrees p w r) :
    Eval.Agrees r.printout { w with lines := [] } r :=
  { agrees with printout := rfl }

/-- An evaluation that ends does not end as a source that is rejected or paused. -/
theorem Concludes.ended (concludes : Concludes x o w) : o ≠ .paused ∧ ∀ ds, o ≠ .rejected ds := by
  cases concludes with
  | finished | failed => exact ⟨nofun, nofun⟩

/-- An evaluation that ends has not run out of fuel. -/
theorem Concludes.not_exhausted (concludes : Concludes x o w) : ∀ w', x ≠ .error .exhausted w' := by
  cases concludes with
  | finished | failed => nofun

/-- An evaluation ends in one world. -/
theorem Concludes.unique (first : Concludes x o w) (second : Concludes x o w') : w = w' := by
  generalize hx : x = y at second
  cases first with
  | finished =>
      cases second
      exact (EStateM.Result.ok.inj hx).2
  | failed =>
      cases second
      exact (EStateM.Result.error.inj hx).2

/-- A machine and a world that have been given the same programs have a reference machine between
them, which has been given the same sources. -/
theorem Parallel.follows (parallel : Parallel m w) :
    ∃ r, Shadows m r ∧ Eval.Agrees r.printout { w with lines := [] } r := by
  induction parallel with
  | begin hrun => exact ⟨_, .begin hrun, agrees_afresh (agrees_new _ _)⟩
  | @bind _ _ _ name run _ hequivariant hrun ih =>
      obtain ⟨r, hshadows, hagrees⟩ := ih
      have hbound := agrees_afresh (agrees_bind hagrees name run)
      exact ⟨_, .bind hshadows hequivariant hrun, hbound⟩
  | ran _ hran htree hapart hcalm hconcludes ih =>
      obtain ⟨r, hshadows, hagrees⟩ := ih
      obtain ⟨⟨π, hm⟩, harises⟩ := hshadows.mirrors
      obtain ⟨hended, hrejected⟩ := hconcludes.ended
      rcases rejected_or_compiles harises.idle hran with ⟨ds, rfl⟩ | ⟨t, constants, hcompiles⟩
      · exact absurd rfl (hrejected ds)
      obtain ⟨s, -, hrun, -⟩ := mirrors_of_accepted harises.idle hm hcompiles hran
      obtain ⟨w', hconcludes', hs⟩ := concludes_of_tallies
        (hcompiles.tallies harises.idle hm hagrees htree hapart _) hrun hended hcalm
        (.inr hconcludes.not_exhausted)
      obtain rfl := hconcludes.unique hconcludes'
      exact ⟨s, .accepted hshadows hcompiles hran hended hrun, agrees_afresh hs⟩
  | rejected _ hran ih =>
      obtain ⟨r, hshadows, hagrees⟩ := ih
      exact ⟨r, .rejected hshadows hran, hagrees⟩
  | collect _ hrun ih =>
      obtain ⟨r, hshadows, hagrees⟩ := ih
      exact ⟨r, .collect hshadows hrun, hagrees⟩
  | takeOutput _ hrun ih =>
      obtain ⟨r, hshadows, hagrees⟩ := ih
      exact ⟨_, .takeOutput hshadows hrun, { hagrees with printout := rfl }⟩
  | takeDiagnostics _ hrun ih =>
      obtain ⟨r, hshadows, hagrees⟩ := ih
      exact ⟨r, .takeDiagnostics hshadows hrun, hagrees⟩

/-! ### Meaning -/

/-- A run that reflects one that ends. -/
theorem ends_of_reflects {result : EStateM.Result Fault Machine Outcome}
    (reflects : Reflects result (.ok o s)) : (∃ n π, result = .ok o n ∧ Mirrors π n s) ∨
      ∃ n, result = .error .overflow n ∧ n.heap.Overfull := by
  cases reflects with
  | same hn => exact .inl ⟨_, _, rfl, hn⟩
  | lost hover => exact .inr ⟨_, rfl, hover⟩

/-- Compilation preserves meaning. A source that is accepted has one tree. If no function in it
mentions a local variable of a function around it, the machine does with the source what the
evaluator does with the tree. A run that ends without a stack overflow ends as the evaluation does,
with the same runtime error if there is one, and shows the same lines and globals. An evaluation
that ends has such a run, unless the machine raises a stack overflow or is lost to a threshold that
leaves the machine word. -/
theorem meaning_preserved {script : Handle} {k : Machine} (parallel : Parallel m w)
    (accepted : compileSource source m = .ok (.ok script) k) :
    ∃ program, Grammar.Declarations (TokenStream.ofSource source).pending program ∧
      (∀ other, Grammar.Declarations (TokenStream.ofSource source).pending other →
        other = program) ∧
      (Stmt.Apart program →
        (∀ budget o n, Ran budget source m o n → o ≠ .paused → ¬ o.Overflows → ∃ fuel w',
          Concludes (Eval.program fuel program { w with lines := [] }) o w' ∧
            Shows m.printout n w') ∧
        ∀ fuel, (∀ w', Eval.program fuel program { w with lines := [] } ≠ .error .exhausted w') →
          ∃ budget,
            (∃ o n w', runSource budget source m = .ok o n ∧
              Concludes (Eval.program fuel program { w with lines := [] }) o w' ∧
                Shows m.printout n w') ∨
            (∃ o n, runSource budget source m = .ok o n ∧ o.Overflows) ∨
            ∃ n, runSource budget source m = .error .overflow n ∧ n.heap.Overfull) := by
  obtain ⟨r, hshadows, hagrees⟩ := parallel.follows
  obtain ⟨⟨π, hm⟩, harises⟩ := hshadows.mirrors
  obtain ⟨t, constants, hcompiles⟩ := compiles_of_accepted harises.idle accepted
  obtain ⟨program, htree, -⟩ := hcompiles.encoded harises.idle
  rw [hm.printout] at hagrees
  refine ⟨program, htree, fun other hother => hother.unique htree, fun hapart => ?_⟩
  have htallies := hcompiles.tallies harises.idle hm hagrees htree hapart
  refine ⟨fun budget o n hran hended hcalm => ?_, fun fuel hends => ?_⟩
  · obtain ⟨s, π', hrun, hn⟩ := mirrors_of_accepted harises.idle hm hcompiles hran
    obtain ⟨w', hconcludes, hs⟩ := concludes_of_tallies (htallies (budget + 2)) hrun hended hcalm
      (.inl (Nat.lt_succ_self _))
    exact ⟨_, w', hconcludes, shows_of_mirrors hn hs⟩
  · have hreflects := hcompiles.reflects harises.idle hm
    have htally := htallies fuel
    generalize Eval.program fuel program { w with lines := [] } = x at htally hends ⊢
    cases htally with
    | @finished budget w' _ hrun hs =>
        refine ⟨budget, ?_⟩
        rcases ends_of_reflects (hrun ▸ hreflects budget) with ⟨n, π', hn, hm'⟩ | hlost
        · exact .inl ⟨_, n, w', hn, .finished, shows_of_mirrors hm' hs⟩
        · exact .inr (.inr hlost)
    | @failed budget w' _ _ _ hrun hs =>
        refine ⟨budget, ?_⟩
        rcases ends_of_reflects (hrun ▸ hreflects budget) with ⟨n, π', hn, hm'⟩ | hlost
        · exact .inl ⟨_, n, w', hn, .failed, shows_of_mirrors hm' hs⟩
        · exact .inr (.inr hlost)
    | paused => exact absurd rfl (hends _)
    | @overflow budget _ _ trace hrun =>
        refine ⟨budget, .inr ?_⟩
        exact (ends_of_reflects (hrun ▸ hreflects budget)).imp
          (fun ⟨n, _, hn, _⟩ => ⟨_, n, hn, trace, rfl⟩) id
    | @stuck budget _ _ _ hrun =>
        have hlost := hreflects budget
        rw [hrun] at hlost
        generalize hresult : runSource budget source m = result at hlost
        cases hlost with
        | lost hover => exact ⟨budget, .inr (.inr ⟨_, hresult, hover⟩)⟩

/-- A program that prints a text twice over and goes wrong afterwards. -/
def twiceSource : String := "fun twice(s) \x7b print s + s; \x7d twice(\"a\"); print missing;"

/-- The tree of the program. -/
def twiceProgram : List Stmt :=
  [.function "twice" ["s"] [.print (.binary .add (.variable "s") (.variable "s"))],
    .expression (.call (.variable "twice") [.literal (.text "a")]), .print (.variable "missing")]

/-- An expression that is called binds as tightly as any operand. -/
theorem assignment_of_call {ts : List Token} {e : Expr} (h : Grammar.Expression .call ts e) :
    Grammar.Expression .assignment ts e :=
  .tighter (.tighter (.tighter (.tighter (.tighter (.tighter (.tighter (.tighter h)))))))

/-- The program has the tree. -/
theorem twiceProgram_derived :
    Grammar.Declarations (TokenStream.ofSource twiceSource).pending twiceProgram := by
  have htokens : (TokenStream.ofSource twiceSource).pending =
      (⟨.funWord, "fun", 1⟩ :: ⟨.identifier, "twice", 1⟩ :: ⟨.leftParen, "(", 1⟩ ::
        [⟨.identifier, "s", 1⟩] ++ ⟨.rightParen, ")", 1⟩ :: ⟨.leftBrace, "\x7b", 1⟩ ::
        ([⟨.printWord, "print", 1⟩, ⟨.identifier, "s", 1⟩, ⟨.plus, "+", 1⟩, ⟨.identifier, "s", 1⟩,
          ⟨.semicolon, ";", 1⟩] ++ []) ++ [⟨.rightBrace, "\x7d", 1⟩]) ++
      ([⟨.identifier, "twice", 1⟩, ⟨.leftParen, "(", 1⟩, ⟨.string, "\"a\"", 1⟩,
        ⟨.rightParen, ")", 1⟩, ⟨.semicolon, ";", 1⟩] ++
      ([⟨.printWord, "print", 1⟩, ⟨.identifier, "missing", 1⟩, ⟨.semicolon, ";", 1⟩] ++ [])) := by
    decide +kernel
  rw [htokens]
  have hvariable : ∀ name, Grammar.Expression .primary [⟨.identifier, name, 1⟩] (.variable name) :=
    fun name => .variable rfl
  have hfactor : Grammar.Expression .factor [⟨.identifier, "s", 1⟩] (.variable "s") :=
    .tighter (.tighter (.tighter (hvariable "s")))
  have hsum : Grammar.Expression .term
      ([⟨.identifier, "s", 1⟩] ++ ⟨.plus, "+", 1⟩ :: [⟨.identifier, "s", 1⟩])
      (.binary .add (.variable "s") (.variable "s")) :=
    @Grammar.Expression.binary _ .add _ _ _ _ (.tighter hfactor) rfl hfactor
  have hcall : Grammar.Expression .call
      ([⟨.identifier, "twice", 1⟩] ++ ⟨.leftParen, "(", 1⟩ :: [⟨.string, "\"a\"", 1⟩] ++
        [⟨.rightParen, ")", 1⟩]) (.call (.variable "twice") [.literal (.text "a")]) :=
    .call (.tighter (hvariable "twice")) rfl
      (.last (assignment_of_call (.tighter (.text rfl (by decide +kernel))))) rfl
  have hbody : Grammar.Statement false ([⟨.printWord, "print", 1⟩, ⟨.identifier, "s", 1⟩,
      ⟨.plus, "+", 1⟩, ⟨.identifier, "s", 1⟩, ⟨.semicolon, ";", 1⟩])
      (.print (.binary .add (.variable "s") (.variable "s"))) :=
    .print rfl (.intro (.tighter (.tighter (.tighter (.tighter (.tighter hsum))))) rfl)
  exact .cons (.function rfl rfl rfl (.last rfl) rfl rfl (.cons (.statement hbody) .nil) rfl)
    (.cons (.statement (.expression (.intro (assignment_of_call hcall) rfl)))
      (.cons (.statement (.print rfl (.intro (assignment_of_call (.tighter (hvariable "missing")))
        rfl))) .nil))

/-- No function of the program mentions a variable of another one. -/
theorem twiceProgram_apart : Stmt.Apart twiceProgram := by
  simp [Stmt.Apart, twiceProgram, Stmt.MentionsAll, Stmt.Mentions, Stmt.scope, Expr.Mentions,
    Expr.MentionsAll]

/-- Whether a new machine accepts the program, has printed a text when the program has gone wrong,
and has found a cause for that. -/
def twiceIn (budget : Nat) (text : String) (cause : Cause) : Bool :=
  match Session.begin {} (fun _ => 0) with
  | .ok () m =>
    match compileSource twiceSource m with
    | .ok (.ok _) _ =>
      match interpret budget twiceSource m with
      | .ok (.failed e) n => n.printout.text == text && e.cause == cause
      | _ => false
    | _ => false
  | .error _ _ => false

/-- The evaluator prints the text, too, and then misses the same variable. -/
theorem meaning_preserved_missing : ∃ m n script k e fuel w', Parallel m (.new fun _ => 0) ∧
    compileSource twiceSource m = .ok (.ok script) k ∧ Stmt.Apart twiceProgram ∧
    interpret 100 twiceSource m = .ok (.failed e) n ∧ e.cause = .undefinedVariable "missing" ∧
    n.printout.text = "aa\n" ∧
    Concludes (Eval.program fuel twiceProgram { Eval.World.new (fun _ => 0) with lines := [] })
      (.failed e) w' ∧ Shows m.printout n w' := by
  have htwice : twiceIn 100 "aa\n" (.undefinedVariable "missing") = true := by decide +kernel
  unfold twiceIn at htwice
  split at htwice
  · rename_i m hbegin
    split at htwice
    · rename_i script k haccepted
      split at htwice
      · rename_i e n hrun
        obtain ⟨htext, hcause⟩ := Bool.and_eq_true_iff.mp htwice
        have hparallel : Parallel m (.new fun _ => 0) := .begin hbegin
        obtain ⟨program, -, hunique, hmeaning⟩ := meaning_preserved hparallel haccepted
        obtain rfl := hunique _ twiceProgram_derived
        have hcause : e.cause = .undefinedVariable "missing" := beq_iff_eq.mp hcause
        obtain ⟨fuel, w', hconcludes, hshows⟩ := (hmeaning twiceProgram_apart).1 100 _ n (.inr hrun)
          nofun (by rintro ⟨trace, ⟨⟩⟩; cases hcause)
        exact ⟨m, n, script, k, e, fuel, w', hparallel, haccepted, twiceProgram_apart, hrun, hcause,
          beq_iff_eq.mp htext, hconcludes, hshows⟩
      · cases htwice
    · cases htwice
  · cases htwice

end Session

end Lox
