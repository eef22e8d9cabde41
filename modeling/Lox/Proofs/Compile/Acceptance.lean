import Lox.Proofs.Compile.Acceptance.Declarations
import Lox.Proofs.Compile.Lawful.Programs
import Lox.Proofs.Syntax.Trees

/-!
# The compiler accepts its grammar

A list of tokens without malformed ones is compiled only if it can be derived from the rules. The
other way round, a list that can be derived is compiled, unless it breaks a rule that the grammar
does not express, or goes beyond a limit; and then that is what the first diagnostic says. A list
whose tree keeps these rules, as they are told of trees alone, is compiled.

## Main results

* `compile_accepts_grammar` — both directions, and the programs within the rules.
-/

namespace Lox

open Grammar

variable {tokens : TokenStream} {held : List Handle} {heap : Heap}

namespace Compiler

variable {c c' : Compiler} {kinds : List TokenKind} {chunks : List (List TokenKind)}
  {script : Handle} {steps : Nat}

/-- Where the end of the input comes next, nothing else does. -/
theorem Faces.drained (faces : c.Faces kinds) (last : front kinds = .endOfInput) : kinds = [] := by
  have hcurrent : c.current.kind = .endOfInput := faces.current.trans last
  rw [← faces.kinds, ahead, if_pos hcurrent]
  rfl

/-- All declarations up to the end of the input. -/
theorem programDeclarations_eats (each : ∀ chunk ∈ chunks, Declares chunk) (n steps : Nat) :
    Eats chunks.flatten (· = .endOfInput) (programDeclarations (declarationAt n) steps) := by
  have hreports : Reports true (declarationAt n) := (statementAt_declarationAt_reports n).2
  induction chunks generalizing steps with
  | nil =>
      refine ⟨Reports.throughout.programDeclarations hreports,
        fun {rest c _ _} faces hnext run => ?_⟩
      cases steps with
      | zero => cases run
      | succ steps =>
          have hend : c.current.kind = .endOfInput := faces.current.trans hnext
          obtain ⟨d, hadvance, hfaces, -⟩ := faces.advance
          obtain rfl : rest = [] := faces.drained hnext
          rw [programDeclarations, bind_of_ok (accept_of_eq hend hadvance)] at run
          cases run
          exact .inr hfaces
  | cons chunk chunks ih =>
      obtain ⟨hfirst, hothers⟩ := List.forall_mem_cons.mp each
      cases steps with
      | zero => exact .throw _
      | succ steps =>
          refine .skip (.pure _) ((hfirst.eats n).bind (fun _ => ih hothers steps)
            fun rest hend => behind_declaration hothers (hend ▸ by decide)) fun rest _ => ?_
          rw [List.flatten_cons, List.append_assoc]
          exact hfirst.front_ne rfl _

/-- The first token leaves all of them ahead. -/
theorem faces_start (final : tokens.final.kind = .endOfInput)
    (proper : ∀ t ∈ tokens.pending, t.kind ≠ .endOfInput ∧ t.kind ≠ .malformed) :
    ∃ c, advance (start tokens held heap) = .ok () c ∧ c.Faces (tokens.pending.map (·.kind)) :=
  ⟨_, rfl, (faces_pull ⟨rfl, rfl⟩ final (fun t ht => (proper t ht).1)
    fun t ht => (proper t ht).2).1⟩

/-- Nothing is wrong with the syntax of a program that can be derived. -/
theorem program_accepts (final : tokens.final.kind = .endOfInput)
    (proper : ∀ t ∈ tokens.pending, t.kind ≠ .endOfInput ∧ t.kind ≠ .malformed)
    (derives : Derives [.part .declarations] (tokens.pending.map (·.kind)))
    (run : program steps (start tokens held heap) = .ok script c') : c'.Blamed ∨ c'.Quiet := by
  obtain ⟨c, hadvance, hfaces⟩ := @faces_start tokens held heap final proper
  obtain ⟨chunks, hchunks, heach⟩ := declares_of_derives derives
  rw [hchunks, ← List.append_nil chunks.flatten] at hfaces
  rw [program, bind_of_ok hadvance] at run
  have heats := (programDeclarations_eats heach steps steps).done fun _ => finishFunction_idles
  exact (heats.eats hfaces rfl run).imp_right Faces.quiet

end Compiler

/-- A list of tokens is compiled only if it can be derived from the rules. If it can, it is
compiled, or the first diagnostic is about a rule that the grammar does not express, or about a
limit. It may fault, too, if a string token has no text, or if the bytes that the tokens are charged
for do not fit into a machine word. A derivable list whose literals stand for values has a tree, and
if the tree keeps the rules, nothing is left that could be reported. -/
theorem compile_accepts_grammar (final : tokens.final.kind = .endOfInput)
    (proper : ∀ t ∈ tokens.pending, t.kind ≠ .endOfInput ∧ t.kind ≠ .malformed)
    (valid : heap.Valid) (live : ∀ h ∈ held, heap.Live h) :
    (∀ script heap', compile tokens held heap = .ok (.ok script) heap' →
      Derives [.part .declarations] (tokens.pending.map (·.kind))) ∧
    (Derives [.part .declarations] (tokens.pending.map (·.kind)) → ∃ heap',
      (∃ script, compile tokens held heap = .ok (.ok script) heap') ∨
      (∃ d ds, compile tokens held heap = .ok (.error (d :: ds)) heap' ∧ d.issue.isRule = true) ∨
      (compile tokens held heap = .error .overflow heap' ∧
        maxWord < (heap.bytes + tokens.cost) * heap.policy.growth) ∨
      (compile tokens held heap = .error .outOfRange heap' ∧
        ∃ t ∈ tokens.pending, ¬ t.Readable)) ∧
    (Derives [.part .declarations] (tokens.pending.map (·.kind)) →
      (∀ t ∈ tokens.pending, t.Legible) →
      (∃ ss, Declarations tokens.pending ss) ∧
      ∀ ss, Declarations tokens.pending ss → Stmt.LawfulProgram ss → ∃ heap',
        (∃ script, compile tokens held heap = .ok (.ok script) heap') ∨
        (compile tokens held heap = .error .overflow heap' ∧
          maxWord < (heap.bytes + tokens.cost) * heap.policy.growth)) := by
  refine ⟨?_, ?_, ?_⟩
  · intro script heap' run
    unfold compile at run
    split at run
    · rename_i script' c hprogram
      split at run
      · rename_i hnone
        obtain ⟨-, -, ss, _, _, hparsed, -⟩ := Compiler.program_spec valid live final
          (fun t ht => (proper t ht).1) hprogram (Compiler.quiet_of_reported hnone)
        exact declarations_derives hparsed
      · cases run
    · cases run
  · intro derives
    obtain ⟨-, heap', houtcome⟩ := compile_cases final valid live
    refine ⟨heap', houtcome.imp_right (Or.imp_left fun hrejected => ?_)⟩
    obtain ⟨d, ds, hrun⟩ := hrejected
    refine ⟨d, ds, hrun, ?_⟩
    unfold compile at hrun
    split at hrun
    · rename_i script c hprogram
      rcases Compiler.program_accepts final proper derives hprogram with
        ⟨e, es, hreported, hrule⟩ | hquiet
      · simp only [hreported] at hrun
        split at hrun
        · cases hrun
        · cases hrun
          exact hrule
      · have hnone : c.reported.isEmpty = true := by
          simp [Compiler.reported, hquiet.alarm, hquiet.diagnostics]
        rw [if_pos hnone] at hrun
        cases hrun
    · cases hrun
  · intro derives legible
    exact ⟨exists_tree derives legible, fun ss parsed lawful =>
      compile_lawful final proper valid live (fun t ht => (legible t ht).text) parsed lawful⟩

/-- What the first diagnostic is about, if there is one. -/
def firstIssue? : EStateM.Result Fault Heap (Except (List Diagnostic) Handle) → Option Issue
  | .ok (.error (d :: _)) _ => some d.issue
  | _ => none

/-- A sum cannot be assigned: its list of tokens is well formed, but it is rejected because of its
syntax, so it cannot be derived. A function that gives back its argument keeps the rules, so it is
compiled. -/
theorem compile_accepts_grammar_sum :
    ¬ Derives [.part .declarations]
      [.identifier, .plus, .identifier, .equal, .identifier, .semicolon] ∧
    ∃ script heap', compile (.ofList [⟨.funWord, "fun", 1⟩, ⟨.identifier, "f", 1⟩,
      ⟨.leftParen, "(", 1⟩, ⟨.identifier, "x", 1⟩, ⟨.rightParen, ")", 1⟩, ⟨.leftBrace, "\x7b", 1⟩,
      ⟨.returnWord, "return", 1⟩, ⟨.identifier, "x", 1⟩, ⟨.semicolon, ";", 1⟩,
      ⟨.rightBrace, "\x7d", 1⟩]) [] (.empty {}) = .ok (.ok script) heap' := by
  constructor
  · intro derives
    let tokens : TokenStream := .ofList [⟨.identifier, "a", 1⟩, ⟨.plus, "+", 1⟩,
      ⟨.identifier, "b", 1⟩, ⟨.equal, "=", 1⟩, ⟨.identifier, "c", 1⟩, ⟨.semicolon, ";", 1⟩]
    have hissue : firstIssue? (compile tokens [] (.empty {})) =
        some .invalidAssignmentTarget := by decide +kernel
    obtain ⟨heap', houtcome⟩ := (@compile_accepts_grammar tokens [] (.empty {}) rfl (by decide)
      (Heap.valid_empty {}) fun h hh => by cases hh).2.1 derives
    rcases houtcome with ⟨script, hrun⟩ | ⟨d, ds, hrun, hrule⟩ | ⟨hrun, -⟩ | ⟨hrun, -⟩ <;>
      rw [hrun] at hissue
    · cases hissue
    · obtain hd : d.issue = .invalidAssignmentTarget := by simpa [firstIssue?] using hissue
      rw [hd] at hrule
      cases hrule
    · cases hissue
    · cases hissue
  · let tokens : TokenStream := .ofList [⟨.funWord, "fun", 1⟩, ⟨.identifier, "f", 1⟩,
      ⟨.leftParen, "(", 1⟩, ⟨.identifier, "x", 1⟩, ⟨.rightParen, ")", 1⟩, ⟨.leftBrace, "\x7b", 1⟩,
      ⟨.returnWord, "return", 1⟩, ⟨.identifier, "x", 1⟩, ⟨.semicolon, ";", 1⟩,
      ⟨.rightBrace, "\x7d", 1⟩]
    have hx : Expression .assignment [⟨.identifier, "x", 1⟩] (.variable "x") :=
      .tighter <| .tighter <| .tighter <| .tighter <| .tighter <| .tighter <| .tighter <|
        .tighter <| .tighter <| .variable rfl
    have hparsed : Declarations tokens.pending [.function "f" ["x"] [.giveBack (.variable "x")]] :=
      .cons (.function rfl rfl rfl (.last rfl) rfl rfl
        (.cons (.statement (.giveBack rfl (.intro hx rfl))) .nil) rfl) .nil
    have hlawful : Stmt.LawfulProgram [.function "f" ["x"] [.giveBack (.variable "x")]] :=
      ⟨⟨⟨by decide, ⟨by decide, by decide, by decide, by decide⟩, ⟨by decide, trivial⟩, trivial⟩,
        trivial⟩, by decide⟩
    have hkinds : ∀ t ∈ tokens.pending, t.kind ≠ .number ∧ t.kind ≠ .string := by decide
    have hlegible : ∀ t ∈ tokens.pending, t.Legible := fun t ht =>
      ⟨fun h => absurd h (hkinds t ht).1, fun h => absurd h (hkinds t ht).2⟩
    obtain ⟨-, hcompiles⟩ := (@compile_accepts_grammar tokens [] (.empty {}) rfl (by decide)
      (Heap.valid_empty {}) fun h hh => by cases hh).2.2 (declarations_derives hparsed) hlegible
    obtain ⟨heap', ⟨script, hrun⟩ | ⟨-, hoverflow⟩⟩ := hcompiles _ hparsed hlawful
    · exact ⟨script, heap', hrun⟩
    · exact absurd hoverflow (by decide +kernel)

end Lox
