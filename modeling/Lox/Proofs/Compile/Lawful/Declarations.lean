import Lox.Proofs.Compile.Acceptance.Declarations
import Lox.Proofs.Compile.Lawful.Functions

/-!
# Programs that keep the rules

Every statement and every declaration of a program that keeps the rules is consumed silently at the
place that its tree tells of. The proof follows the tree: the rules for its parts are among its own,
and so are the variables that its parts are about.

## Main definitions

* `Compiler.StatementSpends`, `Compiler.DeclarationSpends` — what is proved of a statement and of a
  declaration.
* `Compiler.Row` — declarations one after another.

## Main results

* `statement_spends`, `declaration_spends_parsed`, `declarations_row` — all programs.
-/

namespace Lox.Compiler

open Grammar

variable {W : List (List (Nat × Nat))} {P P' P'' : List Draft} {o : Draft} {outer : List Draft}
  {n s room k l m p : Nat} {t word : Token} {ts us rest : List Token}
  {next : TokenKind → Prop} {wanted : List (Nat × Nat)} {isLocal isOpen : Bool} {own : List String}
  {around : List (List String)} {α : Type} {st : Stmt} {body : List Stmt} {e : Expr}

/-! ### Rows of declarations -/

/-- Declarations one after another, each of which is consumed in front of anything but an `else`. -/
inductive Row (W : List (List (Nat × Nat))) :
    List Draft → List Draft → List Token → Nat → Nat → Prop
  | nil {P : List Draft} : Row W P P [] 0 0
  | cons {P P' P'' : List Draft} {ts us : List Token} {k l m p : Nat} :
      (∀ rest, starts .declaration (upcoming (ts ++ rest)) = true) →
      (∀ n, Spends W P P' ts (Behind true) k m (declarationAt n)) → Row W P' P'' us l p →
        Row W P P'' (ts ++ us) (k + l) (m + p)

/-- No `else` stands behind a declaration in a row of them. -/
theorem Row.behind (row : Row W P P' ts k m) (last : upcoming rest ≠ .elseWord) :
    Behind true (upcoming (ts ++ rest)) := by
  intro _ helse
  cases row with
  | nil => exact last helse
  | @cons _ _ _ _ us _ _ _ _ begins =>
      have hstarts := begins (us ++ rest)
      rw [← List.append_assoc, helse] at hstarts
      cases hstarts

/-- What begins a declaration does not end a row of them. -/
theorem not_endsRow {kind : TokenKind} (begins : starts .declaration kind = true) :
    ¬ EndsRow kind := by
  rintro (rfl | rfl) <;> cases begins

/-- A row of declarations up to what ends it. -/
theorem Row.spends (row : Row W P P' ts k m) (n s : Nat) :
    Spends W P P' ts EndsRow k m (declarations (declarationAt n) s) := by
  induction row generalizing s with
  | nil =>
      intro room rest c _ c' stands hnext run
      cases s with
      | zero => cases run
      | succ s =>
          have hends : EndsRow c.current.kind := stands.current ▸ hnext
          rw [declarations, endsRow_apply, if_pos (by simpa [EndsRow] using hends)] at run
          exact Spends.pure () stands trivial run
  | cons begins first others ih =>
      intro room rest c _ c' stands hnext run
      cases s with
      | zero => cases run
      | succ s =>
          have hmore : ¬ EndsRow c.current.kind := by
            rw [stands.current, List.append_assoc]
            exact not_endsRow (begins _)
          rw [declarations, endsRow_apply, if_neg (by simpa [EndsRow] using hmore)] at run
          refine ((first n).bind (fun _ => ih s) fun rest hends =>
            others.behind ?_) stands hnext run
          rcases hends with h | h <;> rw [h] <;> decide

/-- A row of declarations and the brace that closes it. -/
theorem Row.block_spends {close : Token} (row : Row W P P' ts k m)
    (closes : close.kind = .rightBrace)
    (n s : Nat) : Spends W P P' (ts ++ [close]) Anything k m (block (declarationAt n) s) :=
  (row.spends n s).bind (fun _ => .expects _ closes) fun _ _ => .inl closes

/-! ### Any declaration -/

/-- Nobody has to recover from anything. -/
theorem recover_stays :
    Stays W P 0 0 (do if (← get).panicking then synchronize : CompileM Unit) := by
  intro room rest c _ c' stands _ run
  have hcalm : c.panicking = false := by
    rw [panicking, stands.sees.faces.quiet.alarm]
    rfl
  rw [bind_of_ok (get_apply c), hcalm] at run
  exact Spends.pure () stands trivial run

theorem declarationAt_spends_function (funWord : word.kind = .funWord)
    (spends : ∀ n s, Spends W P P' ts Anything k m (funDeclaration (block (declarationAt n) s) s))
    (n : Nat) : Spends W P P' (word :: ts) (Behind true) k m (declarationAt n) := by
  cases n with
  | zero =>
      rw [declarationAt]
      exact .throw _
  | succ n =>
      rw [declarationAt]
      exact .accept funWord (((spends n _).done fun _ => recover_stays).mono (fun _ _ => trivial)
        (Nat.le_refl _) (Nat.le_refl _))

theorem declarationAt_spends_variable (varWord : word.kind = .varWord)
    (spends : ∀ n, Spends W P P' ts Anything k m (varDeclaration (expression n))) (n : Nat) :
    Spends W P P' (word :: ts) (Behind true) k m (declarationAt n) := by
  cases n with
  | zero =>
      rw [declarationAt]
      exact .throw _
  | succ n =>
      rw [declarationAt]
      refine .skip (.accept varWord (((spends _).done fun _ => recover_stays).mono
        (fun _ _ => trivial) (Nat.le_refl _) (Nat.le_refl _))) fun rest _ => ?_
      rw [List.cons_append, upcoming, varWord]
      decide

theorem declarationAt_spends_statement
    (begins : ∀ rest, starts .statement (upcoming (ts ++ rest)) = true)
    (spends : ∀ n, Spends W P P' ts (Behind isOpen) k m (statementAt n)) (n : Nat) :
    Spends W P P' ts (Behind true) k m (declarationAt n) := by
  cases n with
  | zero =>
      rw [declarationAt]
      exact .throw _
  | succ n =>
      have hother : ∀ {kind}, starts .statement kind = false → ∀ rest, Behind true (upcoming rest) →
          upcoming (ts ++ rest) ≠ kind := fun hkind rest _ heq => by
        have hstarts := begins rest
        rw [heq, hkind] at hstarts
        cases hstarts
      have hstatement := (spends (n + 1)).mono (fun kind (h : Behind true kind) _ => h rfl)
        (Nat.le_refl _) (Nat.le_refl _)
      rw [statementAt] at hstatement
      rw [declarationAt]
      exact .skip (.skip (hstatement.done fun _ => recover_stays) (hother rfl)) (hother rfl)

/-! ### Whole programs -/

/-- What is proved of a statement: it is consumed silently wherever it keeps the rules. -/
def StatementSpends (isOpen : Bool) (ts : List Token) (st : Stmt) : Prop :=
  ∀ ⦃wanted W o outer isLocal own around⦄, Placed o outer isLocal own around →
    st.Lawful isLocal own around → outsideAll (st.effects isLocal own around) ⊆ wanted → ∀ n,
      Spends (wanted :: W) (o :: outer) (o :: outer) ts (Behind isOpen)
        (st.constants isLocal own around) (st.size isLocal own around) (statementAt n)

/-- What is proved of a declaration. It adds its name to those in scope. -/
def DeclarationSpends (ts : List Token) (st : Stmt) : Prop :=
  ∀ ⦃wanted W o outer isLocal own around⦄, Placed o outer isLocal own around →
    st.Lawful isLocal own around → outsideAll (st.effects isLocal own around) ⊆ wanted →
    (isLocal = true → ∀ name ∈ st.scope true, o.declares name = false) → ∀ n,
      Spends (wanted :: W) (o :: outer) (o.declaring (st.scope isLocal) :: outer) ts (Behind true)
        (st.constants isLocal own around) (st.size isLocal own around) (declarationAt n)

/-- What is proved of declarations one after another. -/
def DeclarationsSpend (ts : List Token) (body : List Stmt) : Prop :=
  ∀ ⦃wanted W o outer isLocal own around⦄, Placed o outer isLocal own around →
    Stmt.LawfulAll isLocal own around body →
    outsideAll (Stmt.effectsAll isLocal own around body) ⊆ wanted →
    (isLocal = true → (∀ name ∈ Stmt.names body, o.declares name = false) ∧
      (Stmt.names body).Nodup) →
      Row (wanted :: W) (o :: outer)
        (o.declaring (if isLocal then (Stmt.names body).reverse else []) :: outer) ts
        (Stmt.constantsAll isLocal own around body) (Stmt.sizeAll isLocal own around body)

/-- A block. -/
theorem statementSpends_block {left right : Token} (leftBrace : left.kind = .leftBrace)
    (inside : DeclarationsSpend ts body) (rightBrace : right.kind = .rightBrace) :
    StatementSpends false (left :: ts ++ [right]) (.block body) := by
  rintro wanted W o outer isLocal own around placed ⟨hdistinct, hlawful⟩ hsub
  rw [Stmt.effects, outsideAll_append, List.append_subset] at hsub
  have hrow := inside (W := W) placed.deeper hlawful hsub.1 fun _ =>
    ⟨fun name _ => Draft.declares_deeper placed.settled name, hdistinct⟩
  refine statementAt_spends_word leftBrace (fun _ => rfl) fun n => ?_
  exact (braces_spends placed.settled (hrow.block_spends rightBrace n (n + 1))).mono
    (fun _ _ => trivial) (Nat.le_refl _) (by simp [Stmt.size])

/-- A loop with three clauses, behind its initializer. -/
theorem forStatement_spends_loop {left : Token} {is cs ns : List Token}
    {condition increment : Option Expr} {new : List String} {start : Nat}
    (placed : Placed o outer isLocal own around) (leftParen : left.kind = .leftParen)
    (first : Spends (wanted :: W) (o.deeper :: outer) (o.deeper.declaring new :: outer) is Anything
      k start (forInitializer (expression (n + 1))))
    (test : Condition cs condition) (round : Increment ns increment)
    (inside : StatementSpends isOpen ts st)
    (lawful : (Stmt.loop condition increment st).Lawful true (new ++ own) around)
    (sub : outsideAll ((Stmt.loop condition increment st).effects true (new ++ own) around) ⊆
      wanted) :
    Spends (wanted :: W) (o :: outer) (o :: outer) (left :: (is ++ (cs ++ (ns ++ ts))))
      (Behind isOpen) (k + (Stmt.loop condition increment st).constants true (new ++ own) around)
      (start + ((Stmt.loop condition increment st).size true (new ++ own) around + new.length))
      (forStatement (expression (n + 1)) (statementAt n)) := by
  obtain ⟨hcondition, hincrement, hbody, hreachable⟩ := lawful
  simp only [Stmt.effects, outsideAll_append, List.append_subset] at sub
  obtain ⟨⟨⟨hsub, hsub'⟩, hsub''⟩, -⟩ := sub
  have hplaced := placed.deeper.declaring new
  have hfine : ∀ e ∈ condition, Fine (wanted :: W) (o.deeper.declaring new :: outer) e := by
    rintro e rfl
    rw [Option.elim_some, outsideAll_append, List.append_subset] at hsub
    exact hplaced.fine (hcondition e rfl) hsub.1
  have hfine' : ∀ e ∈ increment, Fine (wanted :: W) (o.deeper.declaring new :: outer) e := by
    rintro e rfl
    rw [Option.elim_some, outsideAll_append, List.append_subset] at hsub'
    exact hplaced.fine (hincrement e rfl) hsub'.1
  refine (forStatement_spends leftParen placed.settled first test hfine round hfine'
    (inside hplaced hbody hsub'' n) hreachable).mono (fun _ h => h) ?_ (Nat.le_refl _)
  have hconstants := congrArg Expr.constants hplaced.scopes
  simp only [Stmt.constants, Nat.add_assoc, ← hconstants]
  exact Nat.le_refl _

/-- A function. -/
theorem declarationSpends_function {name left right brace close : Token} {ps : List Token}
    {parameters : List String} (funWord : word.kind = .funWord) (isName : name.kind = .identifier)
    (leftParen : left.kind = .leftParen) (parsed : Parameters ps parameters)
    (rightParen : right.kind = .rightParen) (leftBrace : brace.kind = .leftBrace)
    (inside : DeclarationsSpend ts body) (closes : close.kind = .rightBrace) :
    DeclarationSpends (word :: name :: left :: ps ++ right :: brace :: ts ++ [close])
      (.function name.lexeme parameters body) := by
  rintro wanted W o outer isLocal own around placed ⟨hslot, hbounded, hlawful⟩ hsub hnew
  rw [Stmt.effects, outsideAll, Effect.outside, List.append_subset] at hsub
  have hinside : ∀ n s, BodySpends parameters body
      (((if isLocal then [name.lexeme] else []) ++ own) :: around) (ts ++ [close])
      (Stmt.sizeAll true (parameters.reverse ++ [""])
        (((if isLocal then [name.lexeme] else []) ++ own) :: around) body)
      (block (declarationAt n) s) := fun n s W d others hplaced hdeclares =>
    ⟨_, (inside hplaced hlawful (List.subset_dedup _) fun _ =>
      ⟨hdeclares, (List.nodup_append.mp hbounded.distinct).2.1⟩).block_spends closes n s⟩
  have houtward : (Stmt.captured parameters body
      (((if isLocal then [name.lexeme] else []) ++ own) :: around)).filterMap outward? ⊆ wanted :=
    fun v hv => hsub.1 (by
      obtain ⟨w, hw, hv⟩ := List.mem_filterMap.mp hv
      exact List.mem_filterMap.mpr ⟨w, List.mem_dedup.mp hw, hv⟩)
  simp only [List.cons_append, List.append_assoc]
  exact declarationAt_spends_function funWord fun n s => funDeclaration_spends placed isName
    leftParen parsed rightParen leftBrace
    (fun hlocal => ⟨hnew hlocal _ (by simp [Stmt.scope]), hslot hlocal⟩) hbounded houtward
    (hinside n s)

/-- A statement declares nothing. -/
theorem scope_of_statement (parsed : Statement isOpen ts st) (isLocal : Bool) :
    st.scope isLocal = [] := by
  cases parsed <;> rfl

/-- Declarations behind a first one. -/
theorem declarationsSpend_cons (begins : ∀ rest, starts .declaration (upcoming (ts ++ rest)) = true)
    (first : DeclarationSpends ts st) (others : DeclarationsSpend us body) :
    DeclarationsSpend (ts ++ us) (st :: body) := by
  rintro wanted W o outer isLocal own around placed ⟨hfirst, hothers⟩ hsub hnew
  rw [Stmt.effectsAll, outsideAll_append, List.append_subset] at hsub
  have hnames : Stmt.names (st :: body) = st.scope true ++ Stmt.names body := List.flatMap_cons
  rw [hnames] at hnew
  refine .cons begins (first placed hfirst hsub.1 fun hlocal name hmem =>
    (hnew hlocal).1 name (List.mem_append_left _ hmem)) ?_
  have hrow := others (W := W) (placed.declaring (st.scope isLocal)) hothers hsub.2 fun hlocal => by
    obtain ⟨hfree, hdistinct⟩ := hnew hlocal
    subst hlocal
    obtain ⟨-, hdistinct', hapart⟩ := List.nodup_append.mp hdistinct
    exact ⟨fun name hmem => Draft.declares_declaring
      (fun hfirst => hapart name hfirst name hmem rfl)
      (hfree name (List.mem_append_right _ hmem)), hdistinct'⟩
  have hreverse : (st.scope true).reverse = st.scope true := by
    unfold Stmt.scope
    split <;> rfl
  rw [Draft.declaring_declaring] at hrow
  cases isLocal with
  | false =>
      have hnone : st.scope false = [] := by
        unfold Stmt.scope
        split <;> rfl
      rw [hnone] at hrow ⊢
      exact hrow
  | true =>
      rw [hnames, List.reverse_append, hreverse]
      exact hrow

/-- The declaration of a variable begins with a word of its own. -/
theorem variable_begins (parsed : VariableDeclaration ts st) :
    ∃ word us, ts = word :: us ∧ word.kind = .varWord := by
  cases parsed with
  | bare word => exact ⟨_, _, rfl, word⟩
  | initial word => exact ⟨_, _, rfl, word⟩

/-- The declaration of a variable, behind its word. -/
theorem variable_spends (parsed : VariableDeclaration (word :: ts) st)
    (placed : Placed o outer isLocal own around) (lawful : st.Lawful isLocal own around)
    (sub : outsideAll (st.effects isLocal own around) ⊆ wanted)
    (new : isLocal = true → ∀ name ∈ st.scope true, o.declares name = false) :
    Spends (wanted :: W) (o :: outer) (o.declaring (st.scope isLocal) :: outer) ts Anything
      (st.constants isLocal own around) (st.size isLocal own around)
      (varDeclaration (expression n)) := by
  cases parsed with
  | bare _ name semicolon =>
      exact varDeclaration_spends_bare placed name semicolon fun hlocal =>
        ⟨new hlocal _ (by simp [Stmt.scope]), (lawful.2 hlocal).1⟩
  | initial _ name equals ended =>
      rw [Stmt.effects, outsideAll_append, List.append_subset] at sub
      exact varDeclaration_spends_initial placed name equals ended
        (fun hlocal => ⟨new hlocal _ (by simp [Stmt.scope]), lawful.2 hlocal⟩) lawful.1 sub.1

/-- A loop adds no name to those of its initializer. -/
theorem names_loop {condition increment : Option Expr} (initial : Stmt) :
    Stmt.names ([initial] ++ [.loop condition increment st]) = initial.scope true :=
  List.append_nil _

/-- A loop with three clauses. -/
theorem statementSpends_for {left : Token} {is cs ns : List Token}
    {condition increment : Option Expr} {initial : List Stmt} (forWord : word.kind = .forWord)
    (leftParen : left.kind = .leftParen) (first : Initializer is initial)
    (test : Condition cs condition) (round : Increment ns increment)
    (inside : StatementSpends isOpen ts st) :
    StatementSpends isOpen (word :: left :: is ++ cs ++ ns ++ ts)
      (.block (initial ++ [.loop condition increment st])) := by
  rintro wanted W o outer isLocal own around placed ⟨-, hlawful⟩ hsub
  rw [Stmt.effects, outsideAll_append, List.append_subset] at hsub
  have hsub := hsub.1
  simp only [List.cons_append, List.append_assoc]
  refine statementAt_spends_word forWord (fun _ => rfl) fun n => ?_
  cases first with
  | none semicolon =>
      rw [List.nil_append, Stmt.effectsAll, outsideAll_append, List.append_subset] at hsub
      have hfirst : Spends (wanted :: W) (o.deeper :: outer) (o.deeper.declaring [] :: outer) [_]
          Anything 0 0 (forInitializer (expression (n + 1))) :=
        forInitializer_spends_none semicolon
      refine (forStatement_spends_loop placed leftParen hfirst test round inside hlawful.1
        hsub.1).mono (fun _ h => h) ?_ ?_
      · simp [Stmt.constants, Stmt.constantsAll]
      · simp [Stmt.size, Stmt.sizeAll, Stmt.names, Stmt.scope]
  | «variable» parsed =>
      simp only [List.singleton_append, Stmt.effectsAll, outsideAll_append,
        List.append_subset] at hsub
      obtain ⟨hvariable, hloop, -⟩ := hlawful
      obtain ⟨varWord, us, rfl, hword⟩ := variable_begins parsed
      have hfirst := forInitializer_spends_variable hword
        (variable_spends (W := W) (n := n + 1) parsed placed.deeper hvariable hsub.1
          fun _ name _ => Draft.declares_deeper placed.settled name)
      refine (forStatement_spends_loop placed leftParen hfirst test round inside hloop
        hsub.2.1).mono (fun _ h => h) ?_ ?_
      · simp [Stmt.constants, Stmt.constantsAll]
      · rw [Stmt.size, names_loop]
        simp only [List.singleton_append, Stmt.sizeAll]
        omega
  | expression ended =>
      simp only [List.singleton_append, Stmt.effectsAll, outsideAll_append,
        List.append_subset] at hsub
      obtain ⟨hvalue, hloop, -⟩ := hlawful
      obtain ⟨hinitial, hrest, -⟩ := hsub
      rw [Stmt.effects, outsideAll_append, List.append_subset] at hinitial
      have hfirst : Spends (wanted :: W) (o.deeper :: outer) (o.deeper.declaring [] :: outer) is
          Anything _ _ (forInitializer (expression (n + 1))) :=
        forInitializer_spends_expression ended (placed.deeper.fine hvalue hinitial.1)
      refine (forStatement_spends_loop placed leftParen hfirst test round inside hloop
        hrest).mono (fun _ h => h) ?_ ?_
      · exact Nat.add_le_add_right (placed.deeper.constantsAt_le _) _
      · rw [Stmt.size, names_loop]
        simp only [List.singleton_append, Stmt.sizeAll]
        exact Nat.le_refl _

mutual

/-- A statement that keeps the rules is consumed silently. -/
theorem statement_spends {isOpen : Bool} {ts : List Token} {st : Stmt} :
    Statement isOpen ts st → StatementSpends isOpen ts st
  | .expression ended => by
      intro wanted W o outer isLocal own around placed lawful sub n
      rw [Stmt.effects, outsideAll_append, List.append_subset] at sub
      exact (statementAt_spends_expression ended (placed.fine lawful sub.1) n).mono
        (fun _ _ => trivial) (placed.constantsAt_le _) (Nat.le_refl _)
  | .print word ended => by
      intro wanted W o outer isLocal own around placed lawful sub n
      exact statementAt_spends_word word (fun _ => rfl) (fun n =>
        (printStatement_spends ended (placed.fine lawful sub)).mono (fun _ _ => trivial)
          (placed.constantsAt_le _) (Nat.le_refl _)) n
  | .giveBackNothing word semicolon => by
      intro wanted W o outer isLocal own around placed lawful sub n
      exact statementAt_spends_word word (fun _ => rfl) (fun n =>
        (returnStatement_spends_none (placed.inner lawful.1) semicolon).mono (fun _ _ => trivial)
          (Nat.le_refl _) (Nat.le_refl _)) n
  | .giveBack word ended => by
      intro wanted W o outer isLocal own around placed lawful sub n
      exact statementAt_spends_word word (fun _ => rfl) (fun n =>
        (returnStatement_spends_value (placed.inner lawful.1) ended
          (placed.fine lawful.2 sub)).mono (fun _ _ => trivial) (placed.constantsAt_le _)
            (Nat.le_refl _)) n
  | .block left body right => statementSpends_block left (declarations_row body) right
  | .ifThen word left condition right yes => by
      rintro wanted W o outer isLocal own around placed ⟨hcondition, hyes, hshort, -⟩ sub n
      simp only [Stmt.effects, outsideAll_append, List.append_subset] at sub
      exact statementAt_spends_word word (fun _ => rfl) (fun n =>
        (ifStatement_spends_then left condition (placed.fine hcondition sub.1.1.1.1) right
          (statement_spends yes placed hyes sub.1.1.2 n) hshort).mono (fun _ h => h)
            (Nat.add_le_add_right (placed.constantsAt_le _) _) (by simp only [Stmt.size]; omega)) n
  | .ifElse word left condition right yes other no => by
      rintro wanted W o outer isLocal own around placed
        ⟨hcondition, hyes, hshort, hno, hshort'⟩ sub n
      simp only [Stmt.effects, outsideAll_append, List.append_subset] at sub
      simp only [List.cons_append, List.append_assoc]
      exact statementAt_spends_word word (fun _ => rfl) (fun n =>
        (ifStatement_spends_else left condition (placed.fine hcondition sub.1.1.1.1) right
          (statement_spends yes placed hyes sub.1.1.2 n) hshort other
          (statement_spends no placed hno sub.2 n) hshort').mono (fun _ h => h)
            (by rw [Stmt.constants, Nat.add_assoc]
                exact Nat.add_le_add_right (placed.constantsAt_le _) _)
            (by simp only [Stmt.size]; omega)) n
  | .while word left condition right body => by
      rintro wanted W o outer isLocal own around placed ⟨hcondition, -, hbody, hreachable⟩ sub n
      simp only [Stmt.effects, Option.elim_some, Option.elim_none, outsideAll_append,
        List.append_subset] at sub
      exact statementAt_spends_word word (fun _ => rfl) (fun n =>
        (whileStatement_spends left condition (placed.fine (hcondition _ rfl) sub.1.1.1.1) right
          (statement_spends body placed hbody sub.1.2 n) hreachable).mono (fun _ h => h)
            (Nat.add_le_add_right (placed.constantsAt_le _) _) (Nat.le_refl _)) n
  | .for word left initial condition increment body =>
      statementSpends_for word left initial condition increment (statement_spends body)

/-- A declaration that keeps the rules is consumed silently. -/
theorem declaration_spends_parsed {ts : List Token} {st : Stmt} :
    Declaration ts st → DeclarationSpends ts st
  | .statement parsed => by
      intro wanted W o outer isLocal own around placed lawful sub _ n
      rw [scope_of_statement parsed]
      exact declarationAt_spends_statement (upcoming_starts (statement_derives parsed) (by decide))
        (statement_spends parsed placed lawful sub) n
  | .variable parsed => by
      intro wanted W o outer isLocal own around placed lawful sub new n
      obtain ⟨word, us, rfl, hword⟩ := variable_begins parsed
      exact declarationAt_spends_variable hword
        (fun n => variable_spends parsed placed lawful sub new) n
  | .function word name left parameters right brace body close =>
      declarationSpends_function word name left parameters right brace (declarations_row body) close

/-- Declarations that keep the rules are a row of them. -/
theorem declarations_row {ts : List Token} {body : List Stmt} :
    Declarations ts body → DeclarationsSpend ts body
  | .nil => by
      intro wanted W o outer isLocal own around placed _ _ _
      cases isLocal <;> exact .nil
  | .cons first others =>
      declarationsSpend_cons (upcoming_starts (declaration_derives first) (by decide))
        (declaration_spends_parsed first) (declarations_row others)

end

end Lox.Compiler
