import Lox.Proofs.Compile.Acceptance.Steps
import Lox.Proofs.Compile.Expressions
import Lox.Proofs.Syntax.Derivation

/-!
# Derivable expressions are accepted

Precedence climbing that starts in front of a derivable expression comes back to its loop over
operators right behind it, whatever the operators were that it was asked for, as long as it was
asked for those of the expression. The claim is about the loop, not about the whole run, since the
left operand of an operator has no run of its own: its run goes on with the operator.

## Main definitions

* `Resumes` — a run that comes by the loop over operators.
* `Climbs` — lists of tokens behind which every run does.

## Main results

* `expression_climbs`, `expression_eats` — derivable expressions.
-/

namespace Lox.Compiler

open Grammar

variable {c c' : Compiler} {n : Nat} {ks ls rest : List TokenKind}
  {next : TokenKind → Prop} {kind : TokenKind} {level least : Precedence}

/-- An expression of a level stops in front of a token. -/
def Stops (level : Precedence) (kind : TokenKind) : Prop :=
  (Precedence.ofToken kind).rank < level.rank ∧ (level.rank ≤ 1 → kind ≠ .equal)

instance (level : Precedence) : DecidablePred (Stops level) :=
  fun _ => inferInstanceAs (Decidable (_ ∧ _))

/-- What is left to do of an expression behind its first operand. -/
def onward (n : Nat) (least : Precedence) (steps : Nat) : CompileM Unit := do
  operators (expressionAt n) least steps
  if decide (least.rank ≤ Precedence.assignment.rank) && (← check .equal) then
    advance
    complain .invalidAssignmentTarget

/-- A run that comes by the loop over operators in front of given tokens. -/
def Resumes (n : Nat) (least : Precedence) (rest : List TokenKind) (c' : Compiler) : Prop :=
  c'.Blamed ∨ ∃ mid steps, mid.Faces rest ∧ onward n least steps mid = .ok () c'

/-- Behind tokens of the given kinds every run comes by the loop over operators, if it takes the
operators of the level and none of them has to take what stands behind. -/
def Climbs (level : Precedence) (ks : List TokenKind) : Prop :=
  ∀ ⦃n least rest c c'⦄, 1 ≤ least.rank → least.rank ≤ level.rank → c.Faces (ks ++ rest) →
    (Precedence.ofToken (front rest)).rank ≤ level.follow →
    (least.rank ≤ 1 → front rest ≠ .equal) → expressionAt (n + 1) least c = .ok () c' →
    Resumes n least rest c'

/-! ### Coming by the loop -/

theorem onward_reports (n : Nat) (least : Precedence) (steps : Nat) :
    Reports true (onward n least steps) :=
  .bind (Reports.throughout.operatorsAt (Reports.throughout.expressionAt n) least) fun _ =>
    .bind (Reports.throughout.check _) fun _ =>
      .ite (.bind Reports.throughout.advance fun _ => Reports.throughout.report _)
      (.pure _)

/-- The first operand of an expression. -/
theorem resumes_of_operand {form : OperandForm} (starts : OperandForm.ofToken? kind = some form)
    (eats : Eats ks next
      (operand (expressionAt n) (decide (least.rank ≤ Precedence.assignment.rank)) form))
    (faces : c.Faces (kind :: ks ++ rest)) (allows : next (front rest))
    (run : expressionAt (n + 1) least c = .ok () c') : Resumes n least rest c' := by
  obtain ⟨d, hadvance, hfaces, hprevious⟩ := faces.advance
  rw [expressionAt, expressionWith, bind_of_ok hadvance, bind_of_ok (get_apply d)] at run
  rw [show d.previous.kind = kind from hprevious, starts] at run
  obtain ⟨_, mid, hoperand, honward⟩ := bind_eq_ok_iff.mp run
  rcases eats.eats hfaces allows hoperand with hblamed | hmid
  · exact .inl ((onward_reports n least (n + 1)).blamed hblamed honward)
  · exact .inr ⟨mid, n + 1, hmid, honward⟩

/-- One more operator. -/
theorem Resumes.operator {form : OperatorForm} (resumes : Resumes n least (kind :: ks ++ rest) c')
    (binds : least.rank ≤ (Precedence.ofToken kind).rank)
    (goes : OperatorForm.ofToken? kind = some form)
    (eats : ∀ {steps c c'}, c.previous.kind = kind → c.Faces (ks ++ rest) →
      operator (expressionAt n) steps form c = .ok () c' → c'.Blamed ∨ c'.Faces rest) :
    Resumes n least rest c' := by
  rcases resumes with hblamed | ⟨mid, steps, hfaces, hrun⟩
  · exact .inl hblamed
  cases steps with
  | zero => cases hrun
  | succ steps =>
      obtain ⟨d, hadvance, hahead, hprevious⟩ := hfaces.advance
      have hkind : mid.current.kind = kind := hfaces.current
      obtain ⟨_, o, hoperators, hend⟩ := bind_eq_ok_iff.mp hrun
      rw [operators, bind_of_ok (get_apply mid), hkind, if_pos binds, bind_of_ok hadvance,
        bind_of_ok (get_apply d)] at hoperators
      rw [show d.previous.kind = kind from hprevious, goes] at hoperators
      obtain ⟨_, e, hoperator, hmore⟩ := bind_eq_ok_iff.mp hoperators
      have honward : onward n least steps e = .ok () c' := by
        rw [onward, bind_of_ok hmore]
        exact hend
      rcases eats hprevious hahead hoperator with hblamed | hfaces
      · exact .inl ((onward_reports n least steps).blamed hblamed honward)
      · exact .inr ⟨e, steps, hfaces, honward⟩

/-- An expression whose loop takes no operator. -/
theorem Resumes.ends (resumes : Resumes n least rest c') (stops : Stops least (front rest)) :
    c'.Blamed ∨ c'.Faces rest := by
  rcases resumes with hblamed | ⟨mid, steps, hfaces, hrun⟩
  · exact .inl hblamed
  cases steps with
  | zero => cases hrun
  | succ steps =>
      have hloose : ¬ least.rank ≤ (Precedence.ofToken mid.current.kind).rank := by
        rw [hfaces.current]
        exact Nat.not_le_of_lt stops.1
      have hequal : (decide (least.rank ≤ Precedence.assignment.rank) &&
          decide (mid.current.kind = .equal)) = false := by
        rw [hfaces.current]
        by_cases hassign : least.rank ≤ Precedence.assignment.rank
        · simp [stops.2 hassign]
        · simp [hassign]
      have hoperators : operators (expressionAt n) least (steps + 1) mid = .ok () mid := by
        rw [operators, bind_of_ok (get_apply mid), if_neg hloose]
        rfl
      rw [onward, bind_of_ok hoperators, bind_of_ok (check_apply _ mid), hequal] at hrun
      cases hrun
      exact .inr hfaces

/-- What an expression of a level stops in front of may follow it. -/
theorem rank_le_follow (stops : Stops level kind) :
    (Precedence.ofToken kind).rank ≤ level.follow := by
  have hfollow : level.rank ≤ level.follow + 1 := by cases level <;> decide
  have := stops.1
  omega

/-- A whole expression. -/
theorem Climbs.eats (climbs : Climbs level ks) (tight : 1 ≤ level.rank) (n : Nat) :
    Eats ks (Stops level) (expressionAt n level) := by
  refine ⟨Reports.throughout.expressionAt n level, fun {rest c u c'} faces stops run => ?_⟩
  cases n with
  | zero => cases run
  | succ n =>
      exact (climbs tight (Nat.le_refl _) faces (rank_le_follow stops) stops.2 run).ends stops

/-! ### Operands -/

/-- A number, a string and a literal are one token. -/
theorem operand_idles {form : OperandForm}
    (alone : form = .number ∨ form = .string ∨ form = .literal)
    (parse : Precedence → CompileM Unit) (mayAssign : Bool) :
    Idles (operand parse mayAssign form) := by
  rcases alone with rfl | rfl | rfl
  · refine .read (fun _ _ => rfl) fun c => ?_
    split
    · exact emitConstant_idles _
    · exact complain_idles rfl
  · refine .read (fun _ _ => rfl) fun c => ?_
    split
    · exact .idle (intern_idles _) fun _ => emitConstant_idles _
    · exact .throw _
  · exact .read (fun _ _ => rfl) fun _ => .forM emit_idles _

theorem climbs_alone {form : OperandForm} (starts : OperandForm.ofToken? kind = some form)
    (alone : form = .number ∨ form = .string ∨ form = .literal) : Climbs .primary [kind] :=
  fun _ _ _ _ _ _ _ faces _ _ run =>
    resumes_of_operand starts (operand_idles alone _ _) faces trivial run

/-- A variable that is not assigned. -/
theorem climbs_variable : Climbs .primary [.identifier] := by
  intro n least rest c c' _ _ faces _ hequal run
  have heats : Eats [] (fun kind => least.rank ≤ 1 → kind ≠ .equal)
      (operand (expressionAt n) (decide (least.rank ≤ Precedence.assignment.rank)) .variable) := by
    refine .read (fun _ _ => rfl) fun c => .idle (resolve_idles _) fun target => ?_
    have hwrite : Reports true (do
        Compiler.advance
        expressionAt n .assignment
        emitWith target.write.1 target.write.2) :=
      .bind Reports.throughout.advance fun _ => .bind (Reports.throughout.expressionAt n _) fun _ =>
        Reports.throughout.emitWith _ _
    exact .pass hwrite ((emitWith_idles _ _).mono fun _ _ => trivial) fun _ hnext hassign =>
      hnext (of_decide_eq_true hassign)
  exact resumes_of_operand rfl heats faces hequal run

/-- An assignment. -/
theorem climbs_assign (value : Climbs .assignment ks) :
    Climbs .assignment (.identifier :: .equal :: ks) := by
  intro n least rest c c' _ hloose faces hfollow hequal run
  have heats : Eats (.equal :: ks) (Stops .assignment)
      (operand (expressionAt n) (decide (least.rank ≤ Precedence.assignment.rank)) .variable) := by
    rw [decide_eq_true hloose]
    refine .read (fun _ _ => rfl) fun c => .idle (resolve_idles _) fun target => ?_
    exact .check (.advance ((value.eats (by decide) n).done fun _ => emitWith_idles _ _))
      (Reports.throughout.emitWith _ _) fun _ _ => rfl
  exact resumes_of_operand rfl heats faces ⟨Nat.lt_succ_of_le hfollow, fun _ => hequal hloose⟩ run

theorem climbs_grouping (inside : Climbs .assignment ks) :
    Climbs .primary (.leftParen :: (ks ++ [.rightParen])) := by
  intro n least rest c c' _ _ faces _ _ run
  have heats : Eats (ks ++ [.rightParen]) Anything
      (operand (expressionAt n) (decide (least.rank ≤ Precedence.assignment.rank)) .grouping) :=
    (inside.eats (by decide) n).bind (fun _ => .expects _ _) fun _ _ =>
      (by decide : Stops .assignment .rightParen)
  exact resumes_of_operand rfl heats faces trivial run

theorem climbs_negation (starts : OperandForm.ofToken? kind = some .negation)
    (inside : Climbs .unary ks) : Climbs .unary (kind :: ks) := by
  intro n least rest c c' _ _ faces hfollow _ run
  have heats : Eats ks (Stops .unary)
      (operand (expressionAt n) (decide (least.rank ≤ Precedence.assignment.rank)) .negation) :=
    .read (fun _ _ => rfl) fun _ => (inside.eats (by decide) n).done fun _ => .forM emit_idles _
  exact resumes_of_operand starts heats faces
    ⟨Nat.lt_succ_of_le hfollow, fun h => absurd h (by decide)⟩ run

/-! ### Operators -/

/-- The arguments of a call, up to its closing parenthesis. -/
def Argues (ks : List TokenKind) : Prop :=
  ∀ n steps count, Eats ks (· = .rightParen) (arguments (expressionAt n .assignment) steps count)

/-- Behind an argument. -/
theorem argues_of_value (value : Climbs .assignment ks)
    (others : ∀ n steps count, Eats ls (· = .rightParen) (do
      if ← accept .comma then arguments (expressionAt n .assignment) steps (count + 1)
      else return count + 1))
    (stops : ∀ rest, front rest = .rightParen → Stops .assignment (front (ls ++ rest))) :
    Argues (ks ++ ls) := by
  intro n steps count
  cases steps with
  | zero => exact .throw _
  | succ steps =>
      exact (value.eats (by decide) n).bind (fun _ => .ite
        (.idle (complain_idles rfl) fun _ => others n steps count) (others n steps count)) stops

theorem argues_last (value : Climbs .assignment ks) : Argues ks := by
  have hall : Argues (ks ++ []) := by
    refine argues_of_value value (fun n steps count => .skip
      (Reports.throughout.arguments (Reports.throughout.expressionAt n _) _)
        ((Eats.pure _).mono fun _ _ => trivial)
      fun rest hnext => ?_) fun rest hnext => ?_
    · rw [List.nil_append, hnext]
      decide
    · rw [List.nil_append, hnext]
      decide
  rwa [List.append_nil] at hall

theorem argues_more (value : Climbs .assignment ks) (others : Argues ls) :
    Argues (ks ++ .comma :: ls) :=
  argues_of_value value (fun n steps count => .accept (others n steps (count + 1)) (.pure _))
    fun _ _ => (by decide : Stops .assignment .comma)

/-- An operator of a level behind an expression that may stand in front of it. -/
theorem Climbs.operator {form : OperatorForm} {left : Precedence} (climbs : Climbs left ks)
    (goes : OperatorForm.ofToken? kind = some form) (binds : Precedence.ofToken kind = level)
    (follows : level.rank ≤ left.follow)
    (eats : ∀ ⦃n steps rest c c'⦄, (Precedence.ofToken (front rest)).rank ≤ level.follow →
      c.previous.kind = kind → c.Faces (ls ++ rest) →
      Compiler.operator (expressionAt n) steps form c = .ok () c' → c'.Blamed ∨ c'.Faces rest) :
    Climbs level (ks ++ kind :: ls) := by
  intro n least rest c c' htight hloose faces hfollow hequal run
  have hkind : kind ≠ .equal := by
    rintro rfl
    cases goes
  rw [List.append_assoc] at faces
  have hresumes := climbs htight (hloose.trans (follows.trans left.follow_le)) faces
    (by rw [← binds] at follows; exact follows) (fun _ => hkind) run
  exact hresumes.operator (binds ▸ hloose) goes fun hprevious hfaces hoperator =>
    eats hfollow hprevious hfaces hoperator

theorem climbs_call (callee : Climbs .call ks)
    (arguments : ∀ n steps, Eats ls Anything (callOperator (expressionAt n .assignment) steps)) :
    Climbs .call (ks ++ .leftParen :: ls) :=
  callee.operator (show OperatorForm.ofToken? .leftParen = some .call from rfl) rfl
    (show Precedence.call.rank ≤ Precedence.call.follow by decide)
    fun _ _ _ _ _ _ _ hfaces hoperator => (arguments _ _).eats hfaces trivial hoperator

/-- The end of a call. -/
theorem callEnd_eats (count : Nat) : Eats [.rightParen] Anything (do
    expect .rightParen .parenAfterArguments
    emitWith .call (UInt8.ofNat (min count Draft.maxArity))) :=
  .expect (emitWith_idles _ _)

theorem callOperator_eats_none (n steps : Nat) :
    Eats [.rightParen] Anything (callOperator (expressionAt n .assignment) steps) :=
  .check (.idle (.pure 0) callEnd_eats)
    (.bind (Reports.throughout.arguments (Reports.throughout.expressionAt n _) 0)
      fun count => (callEnd_eats count).reports)
    fun _ _ => rfl

theorem callOperator_eats (argues : Argues ks) (some : ∀ rest, front (ks ++ rest) ≠ .rightParen)
    (n steps : Nat) :
    Eats (ks ++ [.rightParen]) Anything (callOperator (expressionAt n .assignment) steps) := by
  refine .miss (.bind (.pure 0) fun count => (callEnd_eats count).reports)
    ((argues n steps 0).bind callEnd_eats fun _ _ => rfl) fun rest _ => ?_
  rw [List.append_assoc]
  exact some _

theorem climbs_binary (left : Climbs level ks) (right : Climbs level.tighter ls)
    (goes : OperatorForm.ofToken? kind = some .binary) (binds : Precedence.ofToken kind = level)
    (follows : level.rank ≤ level.follow) (tighter : level.tighter.rank = level.rank + 1)
    (positive : 1 ≤ level.rank) : Climbs level (ks ++ kind :: ls) := by
  refine left.operator goes binds follows fun n steps rest c c' hfollow hprevious hfaces hrun => ?_
  have hstops : Stops level.tighter (front rest) := by
    have := level.follow_le
    exact ⟨by omega, fun h => by omega⟩
  rw [Compiler.operator, bind_of_ok (get_apply c), hprevious, binds] at hrun
  exact ((right.eats (by omega) n).done fun _ => .forM emit_idles _).eats hfaces hstops hrun

theorem climbs_and (left : Climbs .equality ks) (right : Climbs .and ls) :
    Climbs .and (ks ++ .andWord :: ls) := by
  refine left.operator (show OperatorForm.ofToken? .andWord = some .and from rfl) rfl
    (show Precedence.and.rank ≤ Precedence.equality.follow by decide)
    fun n steps rest c c' hfollow _ hfaces hrun => ?_
  have hstops : Stops .and (front rest) :=
    ⟨Nat.lt_succ_of_le hfollow, fun h => absurd h (by decide)⟩
  have heats : Eats ls (Stops .and) (andOperator (expressionAt n)) :=
    .idle (emitJump_idles _) fun _ => .idle (emit_idles _) fun _ =>
      (right.eats (by decide) n).done fun _ => patchJump_idles _
  exact heats.eats hfaces hstops hrun

theorem climbs_or (left : Climbs .and ks) (right : Climbs .or ls) :
    Climbs .or (ks ++ .orWord :: ls) := by
  refine left.operator (show OperatorForm.ofToken? .orWord = some .or from rfl) rfl
    (show Precedence.or.rank ≤ Precedence.and.follow by decide)
    fun n steps rest c c' hfollow _ hfaces hrun => ?_
  have hstops : Stops .or (front rest) :=
    ⟨Nat.lt_succ_of_le hfollow, fun h => absurd h (by decide)⟩
  have heats : Eats ls (Stops .or) (orOperator (expressionAt n)) :=
    .idle (emitJump_idles _) fun _ => .idle (emitJump_idles _) fun _ =>
      .idle (patchJump_idles _) fun _ => .idle (emit_idles _) fun _ =>
        (right.eats (by decide) n).done fun _ => patchJump_idles _
  exact heats.eats hfaces hstops hrun

/-! ### Any expression -/

/-- What can be derived from a part does not start with a token that the part does not start
with. -/
theorem front_ne {part : Nonterminal} (derives : Derives [.part part] ks)
    (real : part ≠ .declarations) (other : starts part kind = false) (rest : List TokenKind) :
    front (ks ++ rest) ≠ kind := by
  obtain ⟨first, ls, rfl, hstarts⟩ := derives.starts real
  rintro rfl
  exact absurd (hstarts.symm.trans other) (by decide)

/-- What a tighter level derives is an expression of all looser ones. -/
theorem Climbs.tighter (climbs : Climbs level.tighter ks) : Climbs level ks := by
  have hrank : level.rank ≤ level.tighter.rank := by cases level <;> decide
  have hfollow : level.follow ≤ level.tighter.follow := by cases level <;> decide
  intro n least rest c c' htight hloose faces hfollows hequal run
  exact climbs htight (hloose.trans hrank) faces (hfollows.trans hfollow) hequal run

/-- What is proved of each part of an expression. -/
def ExpressionAccepted : Nonterminal → List TokenKind → Prop
  | .expression level, ks => Climbs level ks
  | .arguments, ks => Argues ks
  | _, _ => True

/-- A row whose parts keep the promise. -/
abbrev RowAccepted : List Symbol → List TokenKind → Prop :=
  Each fun n ks => Derives [.part n] ks ∧ ExpressionAccepted n ks

variable {right : List Symbol}

/-- The rule that leads to the next tighter level. -/
theorem climbs_tighterRule (level : Precedence)
    (each : RowAccepted [.part (.expression level.tighter)] ks) : Climbs level ks := by
  simp only [RowAccepted, each_part_iff, each_nil_iff] at each
  obtain ⟨value, _, rfl, ⟨-, hvalue⟩, rfl⟩ := each
  rw [List.append_nil]
  exact Climbs.tighter hvalue

/-- The operators of a level that associate to the left. -/
theorem climbs_binaryRules {kinds : List TokenKind}
    (operators : ∀ kind ∈ kinds, OperatorForm.ofToken? kind = some .binary ∧
      Precedence.ofToken kind = level)
    (follows : level.rank ≤ level.follow) (tighter : level.tighter.rank = level.rank + 1)
    (positive : 1 ≤ level.rank)
    (member : right ∈ [.part (.expression level.tighter)] :: binaryRules level kinds)
    (each : RowAccepted right ks) : Climbs level ks := by
  rcases List.mem_cons.mp member with rfl | hbinary
  · exact climbs_tighterRule level each
  · obtain ⟨kind, hkind, rfl⟩ := List.mem_map.mp hbinary
    obtain ⟨hgoes, hbinds⟩ := operators kind hkind
    simp only [RowAccepted, each_part_iff, each_token_iff, each_nil_iff] at each
    obtain ⟨left, _, rfl, ⟨-, hleft⟩, _, rfl, right, _, rfl, ⟨-, hright⟩, rfl⟩ := each
    rw [List.append_nil]
    exact climbs_binary hleft hright hgoes hbinds follows tighter positive

theorem climbs_assignmentRules (member : right ∈ rules (.expression .assignment))
    (each : RowAccepted right ks) : Climbs .assignment ks := by
  simp only [rules, List.mem_cons, List.not_mem_nil, or_false] at member
  rcases member with rfl | rfl
  · simp only [RowAccepted, each_part_iff, each_token_iff, each_nil_iff] at each
    obtain ⟨_, rfl, _, rfl, value, _, rfl, ⟨-, hvalue⟩, rfl⟩ := each
    rw [List.append_nil]
    exact climbs_assign hvalue
  · exact climbs_tighterRule .assignment each

theorem climbs_orRules (member : right ∈ rules (.expression .or)) (each : RowAccepted right ks) :
    Climbs .or ks := by
  simp only [rules, List.mem_cons, List.not_mem_nil, or_false] at member
  rcases member with rfl | rfl
  · simp only [RowAccepted, each_part_iff, each_token_iff, each_nil_iff] at each
    obtain ⟨left, _, rfl, ⟨-, hleft⟩, _, rfl, right, _, rfl, ⟨-, hright⟩, rfl⟩ := each
    rw [List.append_nil]
    exact climbs_or hleft hright
  · exact climbs_tighterRule .or each

theorem climbs_andRules (member : right ∈ rules (.expression .and)) (each : RowAccepted right ks) :
    Climbs .and ks := by
  simp only [rules, List.mem_cons, List.not_mem_nil, or_false] at member
  rcases member with rfl | rfl
  · simp only [RowAccepted, each_part_iff, each_token_iff, each_nil_iff] at each
    obtain ⟨left, _, rfl, ⟨-, hleft⟩, _, rfl, right, _, rfl, ⟨-, hright⟩, rfl⟩ := each
    rw [List.append_nil]
    exact climbs_and hleft hright
  · exact climbs_tighterRule .and each

theorem climbs_unaryRules (member : right ∈ rules (.expression .unary))
    (each : RowAccepted right ks) : Climbs .unary ks := by
  simp only [rules, List.mem_cons, List.not_mem_nil, or_false] at member
  rcases member with rfl | rfl | rfl
  case inr.inr => exact climbs_tighterRule .unary each
  all_goals
    simp only [RowAccepted, each_part_iff, each_token_iff, each_nil_iff] at each
    obtain ⟨_, rfl, value, _, rfl, ⟨-, hvalue⟩, rfl⟩ := each
    rw [List.append_nil]
    exact climbs_negation rfl hvalue

theorem climbs_callRules (member : right ∈ rules (.expression .call))
    (each : RowAccepted right ks) : Climbs .call ks := by
  simp only [rules, List.mem_cons, List.not_mem_nil, or_false] at member
  rcases member with rfl | rfl | rfl
  · simp only [RowAccepted, each_part_iff, each_token_iff, each_nil_iff] at each
    obtain ⟨callee, _, rfl, ⟨-, hcallee⟩, _, rfl, _, rfl, rfl⟩ := each
    exact climbs_call hcallee callOperator_eats_none
  · simp only [RowAccepted, each_part_iff, each_token_iff, each_nil_iff] at each
    obtain ⟨callee, _, rfl, ⟨-, hcallee⟩, _, rfl, values, _, rfl, ⟨hvalues, hargues⟩, _, rfl,
      rfl⟩ := each
    -- an argument does not start with the parenthesis that ends a call without any
    exact climbs_call hcallee (callOperator_eats hargues (front_ne hvalues (by decide) rfl))
  · exact climbs_tighterRule .call each

theorem climbs_primaryRules (member : right ∈ rules (.expression .primary))
    (each : RowAccepted right ks) : Climbs .primary ks := by
  simp only [rules, List.mem_cons, List.not_mem_nil, or_false] at member
  rcases member with rfl | rfl | rfl | rfl | rfl | rfl | rfl <;>
    simp only [RowAccepted, each_part_iff, each_token_iff, each_nil_iff] at each
  case inr.inr.inr.inr.inr.inr =>
    obtain ⟨_, rfl, value, _, rfl, ⟨-, hvalue⟩, _, rfl, rfl⟩ := each
    exact climbs_grouping hvalue
  case inr.inr.inr.inr.inr.inl =>
    obtain ⟨_, rfl, rfl⟩ := each
    exact climbs_variable
  all_goals
    obtain ⟨_, rfl, rfl⟩ := each
    exact climbs_alone rfl (by decide)

theorem argues_rules (member : right ∈ rules .arguments) (each : RowAccepted right ks) :
    Argues ks := by
  simp only [rules, List.mem_cons, List.not_mem_nil, or_false] at member
  rcases member with rfl | rfl <;>
    simp only [RowAccepted, each_part_iff, each_token_iff, each_nil_iff] at each
  · obtain ⟨value, _, rfl, ⟨-, hvalue⟩, rfl⟩ := each
    rw [List.append_nil]
    exact argues_last hvalue
  · obtain ⟨value, _, rfl, ⟨-, hvalue⟩, _, rfl, others, _, rfl, ⟨-, hothers⟩, rfl⟩ := each
    rw [List.append_nil]
    exact argues_more hvalue hothers

/-- Every rule for a part of an expression keeps the promise. -/
theorem expressionAccepted_of_rule (part : Nonterminal) (member : right ∈ rules part)
    (each : RowAccepted right ks) : ExpressionAccepted part ks := by
  cases part with
  | expression level =>
      cases level with
      | none =>
          intro n least rest c c' htight hloose
          exact absurd (htight.trans hloose) (by decide)
      | assignment => exact climbs_assignmentRules member each
      | or => exact climbs_orRules member each
      | and => exact climbs_andRules member each
      | equality | comparison | term | factor =>
          exact climbs_binaryRules (by decide) (by decide) (by decide) (by decide) member each
      | unary => exact climbs_unaryRules member each
      | call => exact climbs_callRules member each
      | primary => exact climbs_primaryRules member each
  | arguments => exact argues_rules member each
  | _ => trivial

/-- A derivable expression is climbed. -/
theorem expression_climbs (derives : Derives [.part (.expression level)] ks) : Climbs level ks := by
  have heach := derives.each fun part right ks member each =>
    expressionAccepted_of_rule part member each
  obtain ⟨front, _, rfl, ⟨-, hfront⟩, hnil⟩ := each_part_iff.mp heach
  obtain rfl := each_nil_iff.mp hnil
  rw [List.append_nil]
  exact hfront

/-- A derivable expression is consumed in front of what may stand behind one. -/
theorem expression_eats (derives : Derives [.value] ks) (n : Nat) :
    Eats ks (Stops .assignment) (expression n) :=
  (expression_climbs derives).eats (by decide) n

end Lox.Compiler
