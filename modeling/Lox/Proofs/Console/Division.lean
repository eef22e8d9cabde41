import Lox.Console.Transcript

/-!
# How a dialogue divides its lines

The lines of a dialogue fall into parts: commands, and inputs that are run. An input takes as few
lines as make it complete, and a command stands only where an input may start. What is left at the
end of the dialogue is either unread, behind the command that ends it, or an input that has not
become complete.

A list of lines can be divided in one way only, and the dialogue carries out this division, part by
part. So how the lines are grouped is settled by the lines alone, whatever the machine is and
however the inputs before have ended. What the machine is given are the inputs of the division.

The induction is on the lines that are still to come. The dialogue remembers the lines held back as
one text and a flag; here they are a list of which no beginning is complete, and the flag tells
whether the list is empty.

## Main definitions

* `IsInput`, `Unfinished` — the lines of an input, and the beginning of one.
* `Part`, `Ending`, `Division` — lines that have been divided.
* `Division.carryOut` — the parts carried out in order.
* `Division.sources`, `execute` — the inputs of a division, and what the machine does with them.

## Main results

* `Division.unique` — lines are divided in one way.
* `dialogue_divides` — a dialogue carries out the division of its lines.
-/

namespace Lox.Console

/-! ### Parts -/

/-- Lines as one text, with a newline between each and the next. -/
def joined (lines : List String) : String := "\n".intercalate lines

/-- Whether a line is a command, provided that an input may start there. -/
def isCommand (line : String) : Bool := (trimBlank line).startsWith "."

/-- Whether a line is the command that ends a dialogue. -/
def isExit (line : String) : Bool := trimBlank line = ".exit"

/-- The lines of an input: the first is no command, and they are complete, but no fewer of them
are. -/
structure IsInput (lines : List String) : Prop where
  start : ∃ line, lines.head? = some line ∧ isCommand line = false
  complete : isComplete (joined lines) = true
  shortest : ∀ fewer, fewer <+: lines → fewer ≠ [] → fewer ≠ lines →
    isComplete (joined fewer) = false

/-- Lines that an input may start with, none at all for instance: the first is no command, and none
of their beginnings is complete. -/
structure Unfinished (lines : List String) : Prop where
  start : ∀ line, lines.head? = some line → isCommand line = false
  goesOn : ∀ fewer, fewer <+: lines → fewer ≠ [] → isComplete (joined fewer) = false

/-- A part of a dialogue. -/
inductive Part where
  /-- A command that does not end the dialogue. -/
  | command (line : String) (valid : isCommand line = true ∧ isExit line = false)
  /-- An input that is run. -/
  | input (lines : List String) (valid : IsInput lines)

/-- How a dialogue ends. -/
inductive Ending where
  /-- A command ends it, and what comes behind is not read. -/
  | left (line : String) (valid : isExit line = true) (unread : List String)
  /-- There are no more lines, and an input may have been held back. -/
  | ranOut (held : List String) (valid : Unfinished held)

/-- Lines that have been divided. -/
structure Division where
  /-- The parts, in order. -/
  parts : List Part
  /-- What comes behind them. -/
  ending : Ending

/-- The lines of a part. -/
def Part.lines : Part → List String
  | command line _ => [line]
  | input lines _ => lines

/-- The lines behind all parts. -/
def Ending.lines : Ending → List String
  | left line _ unread => line :: unread
  | ranOut held _ => held

/-- All lines. -/
def Division.lines (d : Division) : List String := d.parts.flatMap Part.lines ++ d.ending.lines

/-! ### Carrying out -/

/-- What a reply shows. -/
def Reply.shown : Reply → String
  | tell text => text
  | leave | wait | run _ => ""

/-- What is written to the error stream about a source that has been run, and the exit status. -/
def blame (outcome : Outcome) : Transcript :=
  (Failure.ofOutcome? outcome).elim {} Transcript.ofFailure

/-- Carries out a part: a command only shows something, and an input is run. What it has printed is
shown whether or not it failed. -/
def Part.carryOut (budget : Nat) : Part → Session Transcript
  | command line _ => return { out := (Reply.ofCommand (trimBlank line)).shown }
  | input lines _ => do
    let outcome ← Session.runSource budget (joined lines)
    let out ← Session.takeOutput
    return { blame outcome with out }

/-- Carries out the end. What has been held back is not run. -/
def Ending.carryOut (broken : Bool) : Ending → Session Transcript
  | left _ _ _ => return {}
  | ranOut _ _ => hangUp broken

/-- Carries out all parts in order, each of them once, and then the end. -/
def Division.carryOut (budget : Nat) (broken : Bool) (d : Division) : Session Transcript := do
  let transcripts ← d.parts.mapM (Part.carryOut budget)
  let last ← d.ending.carryOut broken
  return transcripts.foldr Transcript.append last

/-! ### One division -/

/-- The command that ends a dialogue is a command. -/
theorem isCommand_of_isExit {line : String} (exits : isExit line = true) :
    isCommand line = true := by
  have hexit : trimBlank line = ".exit" := by simpa [isExit] using exits
  rw [isCommand, hexit]
  decide +kernel

/-- An input has a first line, which is no command. -/
theorem IsInput.exists_cons {lines : List String} (valid : IsInput lines) :
    ∃ line others, lines = line :: others ∧ isCommand line = false := by
  obtain ⟨line, hline, hcommand⟩ := valid.start
  obtain ⟨others, hlines⟩ := List.head?_eq_some_iff.mp hline
  exact ⟨line, others, hlines, hcommand⟩

theorem IsInput.ne_nil {lines : List String} (valid : IsInput lines) : lines ≠ [] := by
  obtain ⟨line, others, rfl, -⟩ := valid.exists_cons
  exact List.cons_ne_nil line others

/-- Two inputs at the beginning of the same lines are the same, since the shorter one would be
complete within the longer one. -/
theorem IsInput.unique {lines lines' rest rest' : List String} (valid : IsInput lines)
    (valid' : IsInput lines') (same : lines ++ rest = lines' ++ rest') : lines = lines' := by
  have hclash : ∀ {ls ls' : List String}, IsInput ls → IsInput ls' → ls <+: ls' → ls = ls' := by
    intro ls ls' hls hls' hprefix
    refine Classical.byContradiction fun hne => ?_
    have hopen := hls'.shortest ls hprefix hls.ne_nil hne
    rw [hls.complete] at hopen
    cases hopen
  rcases List.prefix_or_prefix_of_prefix (List.prefix_append lines rest)
    (same ▸ List.prefix_append lines' rest') with hprefix | hprefix
  · exact hclash valid valid' hprefix
  · exact (hclash valid' valid hprefix).symm

/-- No input begins where lines run out before one is complete. -/
theorem Unfinished.not_isInput {held lines : List String} (unfinished : Unfinished held)
    (begins : lines <+: held) : ¬ IsInput lines := by
  intro hinput
  have hopen := unfinished.goesOn lines begins hinput.ne_nil
  rw [hinput.complete] at hopen
  cases hopen

/-- No part stands at the beginning of an end. -/
theorem Ending.no_part {ending : Ending} {p : Part} {rest : List String}
    (same : p.lines ++ rest = ending.lines) : False := by
  cases p with
  | command line valid =>
      cases ending with
      | left exit_ hexit unread =>
          obtain ⟨rfl, -⟩ := List.cons.inj same
          rw [hexit] at valid
          cases valid.2
      | ranOut held hheld =>
          have hcommand := hheld.start line (by rw [← show _ = held from same]; rfl)
          rw [valid.1] at hcommand
          cases hcommand
  | input lines valid =>
      cases ending with
      | left exit_ hexit unread =>
          obtain ⟨line, others, rfl, hcommand⟩ := valid.exists_cons
          obtain ⟨rfl, -⟩ := List.cons.inj same
          rw [isCommand_of_isExit hexit] at hcommand
          cases hcommand
      | ranOut held hheld => exact hheld.not_isInput ⟨rest, same⟩ valid

/-- The same lines end in one way. -/
theorem Ending.unique {ending ending' : Ending} (same : ending.lines = ending'.lines) :
    ending = ending' := by
  have hclash : ∀ {line : String} {unread held : List String}, isExit line = true →
      Unfinished held → line :: unread ≠ held := by
    rintro line unread _ hexit hheld rfl
    have hcommand := hheld.start line rfl
    rw [isCommand_of_isExit hexit] at hcommand
    cases hcommand
  cases ending with
  | left line hexit unread =>
      cases ending' with
      | left line' hexit' unread' =>
          obtain ⟨rfl, rfl⟩ := List.cons.inj same
          rfl
      | ranOut held hheld => exact absurd same (hclash hexit hheld)
  | ranOut held hheld =>
      cases ending' with
      | left line hexit unread => exact absurd same.symm (hclash hexit hheld)
      | ranOut held' hheld' =>
          obtain rfl : held = held' := same
          rfl

/-- The same lines begin with the same part. -/
theorem Part.unique {p p' : Part} {rest rest' : List String}
    (same : p.lines ++ rest = p'.lines ++ rest') : p = p' ∧ rest = rest' := by
  cases p with
  | command line valid =>
      cases p' with
      | command line' valid' =>
          obtain ⟨rfl, rfl⟩ := List.cons.inj same
          exact ⟨rfl, rfl⟩
      | input lines valid' =>
          obtain ⟨line', others, rfl, hcommand⟩ := valid'.exists_cons
          obtain ⟨rfl, -⟩ := List.cons.inj same
          rw [valid.1] at hcommand
          cases hcommand
  | input lines valid =>
      cases p' with
      | command line valid' =>
          obtain ⟨line', others, rfl, hcommand⟩ := valid.exists_cons
          obtain ⟨rfl, -⟩ := List.cons.inj same
          rw [valid'.1] at hcommand
          cases hcommand
      | input lines' valid' =>
          obtain rfl := valid.unique valid' same
          exact ⟨rfl, List.append_cancel_left same⟩

/-- Lines are divided in one way. -/
theorem Division.unique {d d' : Division} (same : d.lines = d'.lines) : d = d' := by
  obtain ⟨parts, ending⟩ := d
  obtain ⟨parts', ending'⟩ := d'
  simp only [lines] at same
  induction parts generalizing parts' with
  | nil =>
      cases parts' with
      | nil =>
          obtain rfl := Ending.unique same
          rfl
      | cons p' parts' =>
          rw [List.flatMap_cons, List.append_assoc] at same
          exact (Ending.no_part same.symm).elim
  | cons p parts ih =>
      rw [List.flatMap_cons, List.append_assoc] at same
      cases parts' with
      | nil => exact (Ending.no_part same).elim
      | cons p' parts' =>
          rw [List.flatMap_cons, List.append_assoc] at same
          obtain ⟨rfl, hrest⟩ := Part.unique same
          have hothers := ih parts' hrest
          injection hothers with hparts hending
          rw [hparts, hending]

/-! ### The dialogue -/

/-- One more line behind others. -/
theorem joined_concat {held : List String} (line : String) (nonempty : held ≠ []) :
    joined (held ++ [line]) = joined held ++ "\n" ++ line := by
  rw [joined, String.intercalate_append_of_ne_nil nonempty (List.cons_ne_nil _ _),
    String.intercalate_singleton]
  rfl

/-- Nothing is held back at first. -/
theorem Unfinished.nil : Unfinished [] :=
  ⟨nofun, fun _ hfewer hne => absurd (List.prefix_nil.mp hfewer) hne⟩

section Reading

variable {held : List String} {line : String}

/-- The first line is no command where one more is held back. -/
theorem Unfinished.start_concat (unfinished : Unfinished held)
    (input : held = [] → isCommand line = false) :
    ∃ first, (held ++ [line]).head? = some first ∧ isCommand first = false := by
  cases held with
  | nil => exact ⟨line, rfl, input rfl⟩
  | cons first others => exact ⟨first, rfl, unfinished.start first rfl⟩

/-- An input is held back a line longer. -/
theorem Unfinished.concat (unfinished : Unfinished held)
    (input : held = [] → isCommand line = false)
    (incomplete : isComplete (joined (held ++ [line])) = false) : Unfinished (held ++ [line]) := by
  refine ⟨fun first hfirst => ?_, fun fewer hfewer hne => ?_⟩
  · obtain ⟨first', hfirst', hcommand⟩ := unfinished.start_concat input
    cases hfirst.symm.trans hfirst'
    exact hcommand
  · rcases List.prefix_concat_iff.mp hfewer with rfl | hheld
    · exact incomplete
    · exact unfinished.goesOn fewer hheld hne

/-- An input becomes complete with a line. -/
theorem Unfinished.isInput (unfinished : Unfinished held)
    (input : held = [] → isCommand line = false)
    (complete : isComplete (joined (held ++ [line])) = true) : IsInput (held ++ [line]) := by
  refine ⟨unfinished.start_concat input, complete, fun fewer hfewer hne hproper => ?_⟩
  rcases List.prefix_concat_iff.mp hfewer with rfl | hheld
  · exact absurd rfl hproper
  · exact unfinished.goesOn fewer hheld hne

/-- A dialogue that holds back some lines. Its buffer is empty where an input may start. -/
def Dialogue.holding (held : List String) : Dialogue :=
  { buffer := joined held, goesOn := held ≠ [] }

/-- The buffer with one more line is what is held back, with the line. -/
theorem extend_holding (held : List String) (line : String) :
    (Dialogue.holding held).extend line = joined (held ++ [line]) := by
  by_cases hnone : held = []
  · subst hnone
    simp [Dialogue.extend, Dialogue.holding, joined]
  · rw [joined_concat line hnone]
    simp [Dialogue.extend, Dialogue.holding, hnone]

/-- A command is read where an input may start. -/
theorem read_command (command : isCommand line = true) :
    (Dialogue.holding []).read line = (.holding [], .ofCommand (trimBlank line)) := by
  rw [isCommand] at command
  simp [Dialogue.read, Dialogue.holding, command]

/-- The command that ends a dialogue is obeyed. -/
theorem ofCommand_of_isExit (exits : isExit line = true) :
    Reply.ofCommand (trimBlank line) = .leave := by
  have hexit : trimBlank line = ".exit" := by simpa [isExit] using exits
  rw [hexit]
  rfl

/-- Every other command shows something. -/
theorem ofCommand_of_not_isExit (stays : isExit line = false) :
    ∃ text, Reply.ofCommand (trimBlank line) = .tell text := by
  have hother : trimBlank line ≠ ".exit" := by simpa [isExit] using stays
  unfold Reply.ofCommand
  split
  · contradiction
  · exact ⟨_, rfl⟩
  · exact ⟨_, rfl⟩
  · exact ⟨_, rfl⟩

/-- Any other line goes on with what is held back. It is run with it, or held back with it. -/
theorem read_input (input : held = [] → isCommand line = false) :
    (Dialogue.holding held).read line =
      if isComplete (joined (held ++ [line])) then (.holding [], .run (joined (held ++ [line])))
      else (.holding (held ++ [line]), .wait) := by
  have hcommand : ((!(Dialogue.holding held).goesOn) && (trimBlank line).startsWith ".") =
    false := by
    by_cases hnone : held = []
    · rw [show (trimBlank line).startsWith "." = false from input hnone, Bool.and_false]
    · simp [Dialogue.holding, hnone]
  rw [Dialogue.read, if_neg (Bool.eq_false_iff.mp hcommand), extend_holding]
  simp only [Dialogue.holding, ne_eq, List.append_eq_nil_iff, List.cons_ne_self, and_false,
    not_false_eq_true, decide_true]
  rfl

end Reading

/-- Running a source as a dialogue does. -/
theorem runReported_eq (budget : Nat) (source : String) :
    runReported budget source = do
      let outcome ← Session.runSource budget source
      let out ← Session.takeOutput
      return { blame outcome with out } := by
  refine bind_congr fun outcome => bind_congr fun out => ?_
  unfold blame
  cases Failure.ofOutcome? outcome <;> rfl

/-- A division with one more part in front. -/
def Division.cons (p : Part) (d : Division) : Division := { d with parts := p :: d.parts }

/-- Where there are no parts, only the end is carried out. -/
theorem Division.carryOut_nil (budget : Nat) (broken : Bool) (ending : Ending) :
    (Division.mk [] ending).carryOut budget broken = ending.carryOut broken := by
  simp [carryOut]

theorem Division.lines_cons (p : Part) (d : Division) : (d.cons p).lines = p.lines ++ d.lines := by
  simp [lines, cons]

/-- The part in front is carried out first. -/
theorem Division.carryOut_cons (budget : Nat) (broken : Bool) (p : Part) (d : Division) :
    (d.cons p).carryOut budget broken = do
      let transcript ← p.carryOut budget
      return transcript.append (← d.carryOut budget broken) := by
  simp [carryOut, cons, List.mapM_cons]

/-- Carrying out the lines to come, with some lines held back. -/
theorem exists_division {held : List String} (unfinished : Unfinished held) (lines : List String) :
    ∃ d : Division, d.lines = held ++ lines ∧ ∀ budget broken,
      converseFrom budget broken (.holding held) lines = d.carryOut budget broken := by
  induction lines generalizing held with
  | nil =>
      refine ⟨⟨[], .ranOut held unfinished⟩, ?_, fun budget broken => ?_⟩
      · simp [Division.lines, Ending.lines]
      · rw [Division.carryOut_nil, converseFrom]
        rfl
  | cons line lines ih =>
      by_cases hcommand : held = [] ∧ isCommand line = true
      · -- Nothing is held back, and a command is read.
        obtain ⟨rfl, hcommand⟩ := hcommand
        cases hexit : isExit line with
        | true =>
            refine ⟨⟨[], .left line hexit lines⟩, rfl, fun budget broken => ?_⟩
            rw [Division.carryOut_nil, converseFrom, read_command hcommand,
              ofCommand_of_isExit hexit]
            rfl
        | false =>
            obtain ⟨d, hlines, hcarry⟩ := ih .nil
            refine ⟨d.cons (.command line ⟨hcommand, hexit⟩), ?_, fun budget broken => ?_⟩
            · rw [Division.lines_cons, hlines]
              rfl
            · obtain ⟨text, htext⟩ := ofCommand_of_not_isExit hexit
              rw [Division.carryOut_cons, ← hcarry, converseFrom, read_command hcommand, htext,
                Part.carryOut, htext]
              rfl
      · have hinput : held = [] → isCommand line = false := fun hnone =>
          Bool.eq_false_iff.mpr fun h => hcommand ⟨hnone, h⟩
        cases hcomplete : isComplete (joined (held ++ [line])) with
        | true =>
            obtain ⟨d, hlines, hcarry⟩ := ih .nil
            refine ⟨d.cons (.input (held ++ [line]) (unfinished.isInput hinput hcomplete)), ?_,
              fun budget broken => ?_⟩
            · rw [Division.lines_cons, hlines]
              simp [Part.lines]
            · rw [Division.carryOut_cons, ← hcarry, converseFrom, read_input hinput,
                if_pos hcomplete, Part.carryOut, ← runReported_eq]
        | false =>
            obtain ⟨d, hlines, hcarry⟩ := ih (unfinished.concat hinput hcomplete)
            refine ⟨d, by rw [hlines]; simp, fun budget broken => ?_⟩
            rw [← hcarry, converseFrom, read_input hinput,
              if_neg (Bool.eq_false_iff.mp hcomplete)]

/-! ### What is executed -/

/-- The source that a part gives to the machine. -/
def Part.source? : Part → Option String
  | command _ _ => none
  | input lines _ => some (joined lines)

/-- The sources that the machine is given, in order. -/
def Division.sources (d : Division) : List String := d.parts.filterMap Part.source?

/-- Gives sources to the machine, one after another, and takes what each has printed. The answers
of the machine are not looked at. -/
def execute (budget : Nat) (sources : List String) : Session Unit :=
  sources.forM fun source => do
    let _ ← Session.runSource budget source
    let _ ← Session.takeOutput

theorem execute_append (budget : Nat) (sources others : List String) :
    execute budget (sources ++ others) =
      (do execute budget sources; execute budget others) := List.forM_append

/-- Carrying out a part executes its source, if it has one. -/
theorem Part.carryOut_executes (budget : Nat) (p : Part) :
    (fun _ => ()) <$> p.carryOut budget = execute budget p.source?.toList := by
  cases p with
  | command line valid => rfl
  | input lines valid => simp [carryOut, execute, source?]

/-- Carrying out the parts executes their sources in order. -/
theorem Division.carryOut_executes (budget : Nat) (d : Division) :
    (fun _ => ()) <$> d.carryOut budget false = execute budget d.sources := by
  obtain ⟨parts, ending⟩ := d
  induction parts with
  | nil => cases ending <;> rfl
  | cons p parts ih =>
      have hsources : (Division.mk (p :: parts) ending).sources =
          p.source?.toList ++ (Division.mk parts ending).sources := by
        cases hsource : p.source? <;> simp [sources, hsource]
      calc (fun _ => ()) <$> (Division.cons p ⟨parts, ending⟩).carryOut budget false
        _ = (do
              let _ ← (fun _ => ()) <$> p.carryOut budget
              (fun _ => ()) <$> (Division.mk parts ending).carryOut budget false) := by
          simp [carryOut_cons]
        _ = execute budget (Division.mk (p :: parts) ending).sources := by
          rw [p.carryOut_executes, ih, hsources, execute_append]

/-- A dialogue divides its lines into commands, which are never run, and inputs, each of which is
run once, in order. An input takes as few lines as make it complete. What is not run is held back at
the end of the lines because it never became complete, or stands behind the command that ends the
dialogue. There is one such division, and the machine and the ways in which inputs end have no part
in it: what the machine goes through is the execution of the inputs, each with its lines joined, and
what is shown of each is what it has printed and how it has failed. -/
theorem dialogue_divides (lines : List String) :
    ∃ d : Division, d.lines = lines ∧ (∀ d' : Division, d'.lines = lines → d' = d) ∧
      ∀ budget,
        (∀ broken, converse budget { lines, broken } = do
          return Transcript.append { out := banner } (← d.carryOut budget broken)) ∧
        (fun _ => ()) <$> converse budget { lines } = execute budget d.sources := by
  obtain ⟨d, hlines, hcarry⟩ := exists_division .nil lines
  have hconverse : ∀ budget broken, converse budget { lines, broken } = do
      return Transcript.append { out := banner } (← d.carryOut budget broken) := by
    intro budget broken
    rw [converse, ← hcarry]
    rfl
  refine ⟨d, hlines, fun d' hd' => Division.unique (hd'.trans hlines.symm), fun budget =>
    ⟨hconverse budget, ?_⟩⟩
  rw [hconverse budget false, ← d.carryOut_executes]
  simp

end Lox.Console
