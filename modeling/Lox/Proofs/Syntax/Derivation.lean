import Lox.Proofs.Syntax.Grammar

/-!
# The grammar as a table of rules

Which lists of kinds of tokens are programs, whatever their trees are. The rules are those that a
reader would write down: an `else` may follow any statement, so a program may have several
derivations. The grammar of trees picks one of them, and its programs are all derivable.

## Main definitions

* `Grammar.rules` — the right sides of the rules for each part of a program.
* `Grammar.Derives` — the lists that a right side stands for.

## Main results

* `Derives.each` — induction over derivations.
* `Derives.starts` — the kinds of token that a part starts with.
* `declarations_derives` — a program that has a tree can be derived.
-/

namespace Lox.Grammar

/-- The parts of a program. -/
inductive Nonterminal where
  | declarations | declaration | function | parameters | variable | statement | block
  | initializer | condition | increment | expression (level : Precedence) | arguments
  deriving DecidableEq, Repr

/-- What a rule puts in a row. -/
inductive Symbol where
  | token (kind : TokenKind)
  | part (n : Nonterminal)
  deriving DecidableEq, Repr

/-- An expression between parentheses, an argument, a value. -/
abbrev Symbol.value : Symbol := .part (.expression .assignment)

/-- Operators of a level that associate to the left. -/
def binaryRules (level : Precedence) (kinds : List TokenKind) : List (List Symbol) :=
  kinds.map fun kind =>
    [.part (.expression level), .token kind, .part (.expression level.tighter)]

/-- The rules for a part. -/
def rules : Nonterminal → List (List Symbol)
  | .declarations => [[], [.part .declaration, .part .declarations]]
  | .declaration => [[.part .function], [.part .variable], [.part .statement]]
  | .function =>
    [[.token .funWord, .token .identifier, .token .leftParen, .token .rightParen, .part .block],
     [.token .funWord, .token .identifier, .token .leftParen, .part .parameters,
      .token .rightParen, .part .block]]
  | .parameters =>
    [[.token .identifier], [.token .identifier, .token .comma, .part .parameters]]
  | .variable =>
    [[.token .varWord, .token .identifier, .token .semicolon],
     [.token .varWord, .token .identifier, .token .equal, .value, .token .semicolon]]
  | .statement =>
    [[.value, .token .semicolon],
     [.token .printWord, .value, .token .semicolon],
     [.token .returnWord, .token .semicolon],
     [.token .returnWord, .value, .token .semicolon],
     [.part .block],
     [.token .ifWord, .token .leftParen, .value, .token .rightParen, .part .statement],
     [.token .ifWord, .token .leftParen, .value, .token .rightParen, .part .statement,
      .token .elseWord, .part .statement],
     [.token .whileWord, .token .leftParen, .value, .token .rightParen, .part .statement],
     [.token .forWord, .token .leftParen, .part .initializer, .part .condition,
      .part .increment, .part .statement]]
  | .block => [[.token .leftBrace, .part .declarations, .token .rightBrace]]
  | .initializer => [[.token .semicolon], [.part .variable], [.value, .token .semicolon]]
  | .condition => [[.token .semicolon], [.value, .token .semicolon]]
  | .increment => [[.token .rightParen], [.value, .token .rightParen]]
  | .expression .none => [[.value]]
  | .expression .assignment =>
    [[.token .identifier, .token .equal, .value], [.part (.expression .or)]]
  | .expression .or =>
    [[.part (.expression .and), .token .orWord, .part (.expression .or)],
     [.part (.expression .and)]]
  | .expression .and =>
    [[.part (.expression .equality), .token .andWord, .part (.expression .and)],
     [.part (.expression .equality)]]
  | .expression .equality =>
    [.part (.expression .comparison)] :: binaryRules .equality [.equalEqual, .bangEqual]
  | .expression .comparison =>
    [.part (.expression .term)] ::
      binaryRules .comparison [.greater, .greaterEqual, .less, .lessEqual]
  | .expression .term => [.part (.expression .factor)] :: binaryRules .term [.plus, .minus]
  | .expression .factor => [.part (.expression .unary)] :: binaryRules .factor [.star, .slash]
  | .expression .unary =>
    [[.token .bang, .part (.expression .unary)], [.token .minus, .part (.expression .unary)],
     [.part (.expression .call)]]
  | .expression .call =>
    [[.part (.expression .call), .token .leftParen, .token .rightParen],
     [.part (.expression .call), .token .leftParen, .part .arguments, .token .rightParen],
     [.part (.expression .primary)]]
  | .expression .primary =>
    [[.token .nilWord], [.token .trueWord], [.token .falseWord], [.token .number],
     [.token .string], [.token .identifier],
     [.token .leftParen, .value, .token .rightParen]]
  | .arguments => [[.value], [.value, .token .comma, .part .arguments]]

/-- The lists that a row of symbols stands for. -/
inductive Derives : List Symbol → List TokenKind → Prop
  | nil : Derives [] []
  | token {kind : TokenKind} {row : List Symbol} {ks : List TokenKind} : Derives row ks →
      Derives (.token kind :: row) (kind :: ks)
  | part {n : Nonterminal} {rule row : List Symbol} {ks ls : List TokenKind} : rule ∈ rules n →
      Derives rule ks → Derives row ls → Derives (.part n :: row) (ks ++ ls)

variable {n : Nonterminal} {right row : List Symbol} {ks ls : List TokenKind} {kind : TokenKind}

/-- A rule for a part. -/
theorem Derives.rule (member : right ∈ rules n) (derives : Derives right ks) :
    Derives [.part n] ks := by
  simpa using Derives.part member derives .nil

/-- A part in front of other symbols. -/
theorem Derives.cons (first : Derives [.part n] ks) (others : Derives row ls) :
    Derives (.part n :: row) (ks ++ ls) := by
  generalize hrow : [Symbol.part n] = whole at first
  cases first with
  | nil => cases hrow
  | token => cases hrow
  | part member derives last =>
      cases hrow
      cases last
      rw [List.append_nil]
      exact .part member derives others

/-! ### Induction -/

/-- A row of symbols whose parts stand for lists with a property. -/
inductive Each (P : Nonterminal → List TokenKind → Prop) : List Symbol → List TokenKind → Prop
  | nil : Each P [] []
  | token {kind : TokenKind} {row : List Symbol} {ks : List TokenKind} : Each P row ks →
      Each P (.token kind :: row) (kind :: ks)
  | part {n : Nonterminal} {row : List Symbol} {ks ls : List TokenKind} : P n ks →
      Each P row ls → Each P (.part n :: row) (ks ++ ls)

variable {P : Nonterminal → List TokenKind → Prop}

theorem each_nil_iff : Each P [] ks ↔ ks = [] := by
  refine ⟨fun each => ?_, ?_⟩
  · cases each
    rfl
  · rintro rfl
    exact .nil

theorem each_token_iff :
    Each P (.token kind :: row) ks ↔ ∃ ls, ks = kind :: ls ∧ Each P row ls := by
  refine ⟨fun each => ?_, ?_⟩
  · cases each with
    | token others => exact ⟨_, rfl, others⟩
  · rintro ⟨ls, rfl, others⟩
    exact .token others

theorem each_part_iff :
    Each P (.part n :: row) ks ↔ ∃ front ls, ks = front ++ ls ∧ P n front ∧ Each P row ls := by
  refine ⟨fun each => ?_, ?_⟩
  · cases each with
    | part first others => exact ⟨_, _, rfl, first, others⟩
  · rintro ⟨front, ls, rfl, first, others⟩
    exact .part first others

/-- A property that every rule passes on holds of all that can be derived. -/
theorem Derives.each
    (step : ∀ n rule ks, rule ∈ rules n →
      Each (fun n ks => Derives [.part n] ks ∧ P n ks) rule ks → P n ks)
    (derives : Derives row ks) :
    Each (fun n ks => Derives [.part n] ks ∧ P n ks) row ks := by
  induction derives with
  | nil => exact .nil
  | token _ ih => exact .token ih
  | part member first _ ihFirst ihOthers =>
      exact .part ⟨.rule member first, step _ _ _ member ihFirst⟩ ihOthers

/-! ### First tokens -/

/-- Whether a token may be the first one of an expression. -/
def startsExpression (kind : TokenKind) : Bool := (OperandForm.ofToken? kind).isSome

/-- Whether a token may be the first one of a statement. -/
def startsStatement (kind : TokenKind) : Bool :=
  kind ∈ [.printWord, .returnWord, .ifWord, .whileWord, .forWord, .leftBrace] ||
    startsExpression kind

/-- Whether a token may be the first one of a part. A row of declarations may be empty. -/
def starts : Nonterminal → TokenKind → Bool
  | .declarations, _ => true
  | .declaration, kind => kind ∈ [.funWord, .varWord] || startsStatement kind
  | .function, kind => kind = .funWord
  | .parameters, kind => kind = .identifier
  | .variable, kind => kind = .varWord
  | .statement, kind => startsStatement kind
  | .block, kind => kind = .leftBrace
  | .initializer, kind => kind ∈ [.semicolon, .varWord] || startsExpression kind
  | .condition, kind => kind = .semicolon || startsExpression kind
  | .increment, kind => kind = .rightParen || startsExpression kind
  | .expression _, kind => startsExpression kind
  | .arguments, kind => startsExpression kind

/-- A row starts with a token that a part may start with, or with a part that starts with such
tokens only. -/
def Leads (n : Nonterminal) : List Symbol → Prop
  | [] => False
  | .token kind :: _ => starts n kind = true
  | .part first :: _ => first ≠ .declarations ∧ ∀ kind, starts first kind → starts n kind

theorem leads_of_rule (real : n ≠ .declarations) : ∀ right ∈ rules n, Leads n right := by
  have htokens : ∀ kind ∈ [TokenKind.bang, .minus, .nilWord, .trueWord, .falseWord, .number,
      .string, .identifier, .leftParen], startsExpression kind = true := by decide
  cases n with
  | declarations => exact absurd rfl real
  | expression level => cases level <;> simp [rules, binaryRules, Leads, starts, htokens]
  | _ => simp +contextual [rules, Leads, starts, startsStatement]

/-- What can be derived from a part that is no row of declarations is not empty. -/
theorem Derives.starts (derives : Derives [.part n] ks) (real : n ≠ .declarations) :
    ∃ kind ls, ks = kind :: ls ∧ Grammar.starts n kind = true := by
  have hall := derives.each (P := fun n ks => n ≠ .declarations →
      ∃ kind ls, ks = kind :: ls ∧ Grammar.starts n kind = true)
        fun n right ks member each real => by
    have hleads := leads_of_rule real right member
    cases each with
    | nil => exact hleads.elim
    | token others => exact ⟨_, _, rfl, hleads⟩
    | part first others =>
        obtain ⟨kind, ls, rfl, hkind⟩ := first.2 hleads.1
        exact ⟨kind, _, rfl, hleads.2 kind hkind⟩
  obtain ⟨front, ls, rfl, ⟨-, hfront⟩, hnil⟩ := each_part_iff.mp hall
  obtain rfl := each_nil_iff.mp hnil
  rw [List.append_nil]
  exact hfront real

/-! ### Programs with trees -/

/-- A rule that is one token. -/
theorem Derives.single (member : [Symbol.token kind] ∈ rules n) : Derives [.part n] [kind] :=
  .rule member (.token .nil)

/-- What a tighter level derives, all looser ones do. -/
theorem Derives.tighter {level : Precedence}
    (derives : Derives [.part (.expression level.tighter)] ks) :
    Derives [.part (.expression level)] ks := by
  cases level with
  | primary => exact derives
  | _ => exact .rule (by simp [rules, binaryRules, Precedence.tighter]) derives

/-- An operator between its operands. -/
theorem Derives.binary {op : BinaryOperator}
    (left : Derives [.part (.expression op.precedence)] ks)
    (operator : BinaryOperator.ofToken? kind = some op)
    (right : Derives [.part (.expression op.precedence.tighter)] ls) :
    Derives [.part (.expression op.precedence)] (ks ++ kind :: ls) := by
  refine .rule ?_ (left.cons (.token right))
  unfold BinaryOperator.ofToken? at operator
  split at operator <;> cases operator <;>
    simp [rules, binaryRules, BinaryOperator.precedence, Precedence.tighter]

mutual

/-- An expression that has a tree can be derived. -/
theorem expression_derives {level : Precedence} {ts : List Token} {e : Expr} :
    Expression level ts e → Derives [.part (.expression level)] (ts.map (·.kind))
  | .number kind _ | .text kind _ | .nil kind | .true kind | .false kind | .variable kind => by
      rw [List.map_singleton, kind]
      exact .single (by simp [rules])
  | .grouping left inside right => by
      have hinside := expression_derives inside
      simp only [List.cons_append, List.map_cons, List.map_append, List.map_nil, left, right]
      exact .rule (by simp [rules]) (.token (hinside.cons (.token .nil)))
  | .call callee left arguments right => by
      have hcallee := expression_derives callee
      simp only [List.append_assoc, List.cons_append, List.map_cons, List.map_append, List.map_nil,
        left, right]
      rcases arguments_derive arguments with ⟨rfl, -⟩ | harguments
      · exact .rule (by simp [rules]) (hcallee.cons (.token (.token .nil)))
      · exact .rule (by simp [rules]) (hcallee.cons (.token (harguments.cons (.token .nil))))
  | @Expression.unary t op _ _ operator operand => by
      have hoperand := expression_derives operand
      rw [List.map_cons]
      unfold UnaryOperator.ofToken? at operator
      split at operator
      · rename_i kind
        rw [kind]
        exact .rule (by simp [rules]) (.token hoperand)
      · rename_i kind
        rw [kind]
        exact .rule (by simp [rules]) (.token hoperand)
      · cases operator
  | .binary first operator second => by
      rw [List.map_append, List.map_cons]
      exact .binary (expression_derives first) operator (expression_derives second)
  | .both first word second | .either first word second => by
      rw [List.map_append, List.map_cons, word]
      exact .rule (by simp [rules])
        ((expression_derives first).cons (.token (expression_derives second)))
  | .assign name equals value => by
      rw [List.map_cons, List.map_cons, name, equals]
      exact .rule (by simp [rules]) (.token (.token (expression_derives value)))
  | .tighter parsed => (expression_derives parsed).tighter

theorem arguments_derive {ts : List Token} {es : List Expr} :
    Arguments ts es → ts = [] ∧ es = [] ∨ Derives [.part .arguments] (ts.map (·.kind))
  | .none => .inl ⟨rfl, rfl⟩
  | .last value => .inr (.rule (by simp [rules]) (expression_derives value))
  | .more value comma others => by
      rw [List.map_append, List.map_cons, comma]
      rcases arguments_derive others with ⟨-, hnil⟩ | hothers
      · cases hnil
      · exact .inr (.rule (by simp [rules]) ((expression_derives value).cons (.token hothers)))

end

theorem ended_derives {ts : List Token} {e : Expr} (ended : Ended ts e) :
    Derives [.value, .token .semicolon] (ts.map (·.kind)) := by
  obtain ⟨value, semicolon⟩ := ended
  rw [List.map_append, List.map_singleton, semicolon]
  exact (expression_derives value).cons (.token .nil)

theorem parameters_derive {ts : List Token} {names : List String} (parsed : Parameters ts names) :
    ts = [] ∧ names = [] ∨ Derives [.part .parameters] (ts.map (·.kind)) := by
  induction parsed with
  | none => exact .inl ⟨rfl, rfl⟩
  | last name =>
      rw [List.map_singleton, name]
      exact .inr (.single (by simp [rules]))
  | more name comma others ih =>
      rw [List.map_cons, List.map_cons, name, comma]
      rcases ih with ⟨-, hnil⟩ | hothers
      · cases hnil
      · exact .inr (.rule (by simp [rules]) (.token (.token hothers)))

theorem variable_derives {ts : List Token} {s : Stmt} (parsed : VariableDeclaration ts s) :
    Derives [.part .variable] (ts.map (·.kind)) := by
  cases parsed with
  | bare word name semicolon =>
      simp only [List.map_cons, List.map_nil, word, name, semicolon]
      exact .rule (by simp [rules]) (.token (.token (.token .nil)))
  | initial word name equals ended =>
      simp only [List.map_cons, word, name, equals]
      exact .rule (by simp [rules]) (.token (.token (.token (ended_derives ended))))

theorem initializer_derives {ts : List Token} {ss : List Stmt} (parsed : Initializer ts ss) :
    Derives [.part .initializer] (ts.map (·.kind)) := by
  cases parsed with
  | none semicolon =>
      rw [List.map_singleton, semicolon]
      exact .single (by simp [rules])
  | «variable» parsed => exact .rule (by simp [rules]) (variable_derives parsed)
  | expression ended => exact .rule (by simp [rules]) (ended_derives ended)

theorem condition_derives {ts : List Token} {e : Option Expr} (parsed : Condition ts e) :
    Derives [.part .condition] (ts.map (·.kind)) := by
  cases parsed with
  | none semicolon =>
      rw [List.map_singleton, semicolon]
      exact .single (by simp [rules])
  | some ended => exact .rule (by simp [rules]) (ended_derives ended)

theorem increment_derives {ts : List Token} {e : Option Expr} (parsed : Increment ts e) :
    Derives [.part .increment] (ts.map (·.kind)) := by
  cases parsed with
  | none right =>
      rw [List.map_singleton, right]
      exact .single (by simp [rules])
  | some value right =>
      rw [List.map_append, List.map_singleton, right]
      exact .rule (by simp [rules]) ((expression_derives value).cons (.token .nil))

/-- Declarations between braces. -/
theorem Derives.braces (inside : Derives [.part .declarations] ks) :
    Derives [.part .block] (.leftBrace :: (ks ++ [.rightBrace])) :=
  .rule (by simp [rules]) (.token (inside.cons (.token .nil)))

mutual

theorem statement_derives {isOpen : Bool} {ts : List Token} {s : Stmt} :
    Statement isOpen ts s → Derives [.part .statement] (ts.map (·.kind))
  | .expression ended => .rule (by simp [rules]) (ended_derives ended)
  | .print word ended | .giveBack word ended => by
      rw [List.map_cons, word]
      exact .rule (by simp [rules]) (.token (ended_derives ended))
  | .giveBackNothing word semicolon => by
      simp only [List.map_cons, List.map_nil, word, semicolon]
      exact .rule (by simp [rules]) (.token (.token .nil))
  | .block left body right => by
      simp only [List.cons_append, List.map_cons, List.map_append, List.map_nil, left, right]
      exact .rule (by simp [rules]) (declarations_derives body).braces
  | .ifThen word left condition right yes | .while word left condition right yes => by
      simp only [List.cons_append, List.map_cons, List.map_append, word, left, right]
      exact .rule (by simp [rules]) (.token (.token ((expression_derives condition).cons
        (.token (statement_derives yes)))))
  | .ifElse word left condition right yes other no => by
      simp only [List.append_assoc, List.cons_append, List.map_cons, List.map_append, word, left,
        right, other]
      exact .rule (by simp [rules]) (.token (.token ((expression_derives condition).cons
        (.token ((statement_derives yes).cons (.token (statement_derives no)))))))
  | .for word left initial condition increment body => by
      simp only [List.append_assoc, List.cons_append, List.map_cons, List.map_append, word, left]
      exact .rule (by simp [rules]) (.token (.token ((initializer_derives initial).cons
        ((condition_derives condition).cons ((increment_derives increment).cons
          (statement_derives body))))))

theorem declaration_derives {ts : List Token} {s : Stmt} :
    Declaration ts s → Derives [.part .declaration] (ts.map (·.kind))
  | .statement parsed => .rule (by simp [rules]) (statement_derives parsed)
  | .variable parsed => .rule (by simp [rules]) (variable_derives parsed)
  | .function word name left parameters right brace body close => by
      simp only [List.append_assoc, List.cons_append, List.map_cons, List.map_append, List.map_nil,
        word, name, left, right, brace, close]
      have hblock := (declarations_derives body).braces
      refine .rule (show [Symbol.part .function] ∈ rules .declaration by simp [rules]) ?_
      rcases parameters_derive parameters with ⟨rfl, -⟩ | hparameters
      · exact .rule (by simp [rules]) (.token (.token (.token (.token hblock))))
      · exact .rule (by simp [rules]) (.token (.token (.token (hparameters.cons (.token hblock)))))

/-- A program that has a tree can be derived. -/
theorem declarations_derives {ts : List Token} {ss : List Stmt} :
    Declarations ts ss → Derives [.part .declarations] (ts.map (·.kind))
  | .nil => .rule (by simp [rules]) .nil
  | .cons first others => by
      rw [List.map_append]
      exact .rule (by simp [rules])
        ((declaration_derives first).cons (declarations_derives others))

end

end Lox.Grammar
