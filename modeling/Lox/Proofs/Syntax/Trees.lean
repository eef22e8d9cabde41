import Lox.Proofs.Syntax.Derivation

/-!
# Derivable lists have trees

A derivation tells of kinds of tokens only. A list of tokens whose kinds can be derived has a tree
as soon as its literals stand for values. The rules leave open to which `if` an `else` belongs, so a
derivation is not turned into a tree as it is: an `else` behind a statement that waits for one is
moved into this statement.

## Main definitions

* `Token.Legible` — literals that stand for values.
* `Grammar.HasTree` — what it means for a part of a program to have a tree.

## Main results

* `Statement.attach` — an `else` finds its `if`.
* `exists_tree` — a derivable list has a tree.
-/

namespace Lox

/-- A number can be read, and a string has a text. -/
structure Token.Legible (t : Token) : Prop where
  number : t.kind = .number → ∃ x, Number.read? t.lexeme = some x
  text : t.kind = .string → ∃ s, Compiler.unquote? t.lexeme = some s

namespace Grammar

variable {t other : Token} {ts us : List Token} {row right : List Symbol} {n : Nonterminal}
  {ks : List TokenKind} {kind : TokenKind} {level : Precedence} {isOpen : Bool} {s : Stmt}

/-! ### An `else` finds its `if` -/

/-- An `else` behind a statement that waits for one belongs to an `if` inside. -/
theorem Statement.attach {yes no : Stmt} (first : Statement true ts yes)
    (elseWord : other.kind = .elseWord) (second : Statement isOpen us no) :
    ∃ isOpen s, Statement isOpen (ts ++ other :: us) s := by
  induction hlength : ts.length using Nat.strongRecOn generalizing ts yes with
  | ind k ih =>
      subst hlength
      -- the part that waits is behind the tokens of the statement around it
      have hpart : ∀ {vs s}, Statement true vs s → vs.length < ts.length →
          ∃ isOpen s, Statement isOpen (vs ++ other :: us) s := fun part hless =>
        ih _ hless part rfl
      cases first with
      | @ifThen _ _ _ _ _ _ _ inner word left condition right part =>
          cases inner with
          | false => exact ⟨isOpen, _, .ifElse word left condition right part elseWord second⟩
          | true =>
              obtain ⟨_, _, hwhole⟩ := hpart part (by simp; omega)
              exact ⟨true, _, by simpa using Statement.ifThen word left condition right hwhole⟩
      | ifElse word left condition right yes inside part =>
          obtain ⟨_, _, hwhole⟩ := hpart part (by simp; omega)
          exact ⟨_, _, by simpa using Statement.ifElse word left condition right yes inside hwhole⟩
      | «while» word left condition right part =>
          obtain ⟨_, _, hwhole⟩ := hpart part (by simp; omega)
          exact ⟨_, _, by simpa using Statement.while word left condition right hwhole⟩
      | «for» word left initial condition increment part =>
          obtain ⟨_, _, hwhole⟩ := hpart part (by simp; omega)
          exact ⟨_, _, by simpa using Statement.for word left initial condition increment hwhole⟩

/-- A choice with two branches, whichever `if` its `else` goes to. -/
theorem Statement.choice {waits : Bool} {word left right : Token} {cs : List Token}
    {condition : Expr} {yes no : Stmt} (ifWord : word.kind = .ifWord)
    (leftParen : left.kind = .leftParen) (test : Expression .assignment cs condition)
    (rightParen : right.kind = .rightParen) (first : Statement waits ts yes)
    (elseWord : other.kind = .elseWord) (second : Statement isOpen us no) :
    ∃ isOpen s, Statement isOpen (word :: left :: (cs ++ right :: (ts ++ other :: us))) s := by
  cases waits with
  | false =>
      exact ⟨isOpen, _, by
        simpa using Statement.ifElse ifWord leftParen test rightParen first elseWord second⟩
  | true =>
      obtain ⟨_, _, hpart⟩ := first.attach elseWord second
      exact ⟨true, _, by simpa using Statement.ifThen ifWord leftParen test rightParen hpart⟩

/-! ### Rows of symbols -/

/-- A row of symbols whose parts stand for lists of tokens with a property. -/
inductive Spelled (Q : Nonterminal → List Token → Prop) : List Symbol → List Token → Prop
  | nil : Spelled Q [] []
  | token {t : Token} {row : List Symbol} {ts : List Token} : Spelled Q row ts →
      Spelled Q (.token t.kind :: row) (t :: ts)
  | part {n : Nonterminal} {row : List Symbol} {ts us : List Token} : Q n ts → Spelled Q row us →
      Spelled Q (.part n :: row) (ts ++ us)

variable {Q : Nonterminal → List Token → Prop}

theorem spelled_nil_iff : Spelled Q [] ts ↔ ts = [] := by
  refine ⟨fun spelled => ?_, ?_⟩
  · cases spelled
    rfl
  · rintro rfl
    exact .nil

theorem spelled_token_iff : Spelled Q (.token kind :: row) ts ↔
    ∃ t us, ts = t :: us ∧ t.kind = kind ∧ Spelled Q row us := by
  refine ⟨fun spelled => ?_, ?_⟩
  · cases spelled with
    | token others => exact ⟨_, _, rfl, rfl, others⟩
  · rintro ⟨t, us, rfl, rfl, others⟩
    exact .token others

theorem spelled_part_iff : Spelled Q (.part n :: row) ts ↔
    ∃ front us, ts = front ++ us ∧ Q n front ∧ Spelled Q row us := by
  refine ⟨fun spelled => ?_, ?_⟩
  · cases spelled with
    | part first others => exact ⟨_, _, rfl, first, others⟩
  · rintro ⟨front, us, rfl, first, others⟩
    exact .part first others

/-- Tokens are split like their kinds. -/
theorem spelled_of_each
    (each : Each (fun n ks => Derives [.part n] ks ∧ ∀ ts : List Token, ts.map (·.kind) = ks →
      (∀ t ∈ ts, t.Legible) → Q n ts) row ks)
    (kinds : ts.map (·.kind) = ks) (legible : ∀ t ∈ ts, t.Legible) : Spelled Q row ts := by
  induction each generalizing ts with
  | nil =>
      obtain rfl := List.map_eq_nil_iff.mp kinds
      exact .nil
  | token _ ih =>
      obtain ⟨t, us, rfl, rfl, hothers⟩ := List.map_eq_cons_iff.mp kinds
      exact .token (ih hothers fun t ht => legible t (List.mem_cons_of_mem _ ht))
  | part first _ ih =>
      obtain ⟨front, us, rfl, hfront, hothers⟩ := List.map_eq_append_iff.mp kinds
      exact .part (first.2 front hfront fun t ht => legible t (List.mem_append_left _ ht))
        (ih hothers fun t ht => legible t (List.mem_append_right _ ht))

/-! ### Trees -/

/-- Tokens that a part stands for have a tree. -/
def HasTree : Nonterminal → List Token → Prop
  | .declarations, ts => ∃ ss, Declarations ts ss
  | .declaration, ts | .function, ts => ∃ s, Declaration ts s
  | .parameters, ts => ∃ name names, Parameters ts (name :: names)
  | .variable, ts => ∃ s, VariableDeclaration ts s
  | .statement, ts => ∃ isOpen s, Statement isOpen ts s
  | .block, ts => ∃ left us right ss, ts = left :: us ++ [right] ∧ left.kind = .leftBrace ∧
    Declarations us ss ∧ right.kind = .rightBrace
  | .initializer, ts => ∃ ss, Initializer ts ss
  | .condition, ts => ∃ e, Condition ts e
  | .increment, ts => ∃ e, Increment ts e
  | .expression level, ts => ∃ e, Expression level ts e
  | .arguments, ts => ∃ e es, Arguments ts (e :: es)

/-- A row whose parts have trees. -/
abbrev RowHasTrees : List Symbol → List Token → Prop := Spelled HasTree

/-- The rule that leads to the next tighter level. -/
theorem hasTree_tighter (level : Precedence)
    (row : RowHasTrees [.part (.expression level.tighter)] ts) :
    HasTree (.expression level) ts := by
  simp only [spelled_part_iff, spelled_nil_iff] at row
  obtain ⟨_, _, rfl, ⟨e, parsed⟩, rfl⟩ := row
  rw [List.append_nil]
  exact ⟨e, .tighter parsed⟩

/-- The operators of a level that associate to the left. -/
theorem hasTree_binary {kinds : List TokenKind}
    (operators : ∀ kind ∈ kinds, ∃ op, BinaryOperator.ofToken? kind = some op ∧
      op.precedence = level)
    (member : right ∈ [.part (.expression level.tighter)] :: binaryRules level kinds)
    (row : RowHasTrees right ts) : HasTree (.expression level) ts := by
  rcases List.mem_cons.mp member with rfl | hbinary
  · exact hasTree_tighter level row
  · obtain ⟨kind, hkind, rfl⟩ := List.mem_map.mp hbinary
    obtain ⟨op, hop, rfl⟩ := operators kind hkind
    simp only [spelled_part_iff, spelled_token_iff, spelled_nil_iff] at row
    obtain ⟨_, _, rfl, ⟨_, first⟩, _, _, rfl, rfl, _, _, rfl, ⟨_, second⟩, rfl⟩ := row
    rw [List.append_nil]
    exact ⟨_, .binary first hop second⟩

theorem hasTree_assignmentRules (member : right ∈ rules (.expression .assignment))
    (row : RowHasTrees right ts) : HasTree (.expression .assignment) ts := by
  simp only [rules, List.mem_cons, List.not_mem_nil, or_false] at member
  rcases member with rfl | rfl
  · simp only [spelled_part_iff, spelled_token_iff, spelled_nil_iff] at row
    obtain ⟨_, _, rfl, name, _, _, rfl, equals, _, _, rfl, ⟨_, value⟩, rfl⟩ := row
    rw [List.append_nil]
    exact ⟨_, .assign name equals value⟩
  · exact hasTree_tighter .assignment row

theorem hasTree_orRules (member : right ∈ rules (.expression .or)) (row : RowHasTrees right ts) :
    HasTree (.expression .or) ts := by
  simp only [rules, List.mem_cons, List.not_mem_nil, or_false] at member
  rcases member with rfl | rfl
  · simp only [spelled_part_iff, spelled_token_iff, spelled_nil_iff] at row
    obtain ⟨_, _, rfl, ⟨_, first⟩, _, _, rfl, word, _, _, rfl, ⟨_, second⟩, rfl⟩ := row
    rw [List.append_nil]
    exact ⟨_, .either first word second⟩
  · exact hasTree_tighter .or row

theorem hasTree_andRules (member : right ∈ rules (.expression .and)) (row : RowHasTrees right ts) :
    HasTree (.expression .and) ts := by
  simp only [rules, List.mem_cons, List.not_mem_nil, or_false] at member
  rcases member with rfl | rfl
  · simp only [spelled_part_iff, spelled_token_iff, spelled_nil_iff] at row
    obtain ⟨_, _, rfl, ⟨_, first⟩, _, _, rfl, word, _, _, rfl, ⟨_, second⟩, rfl⟩ := row
    rw [List.append_nil]
    exact ⟨_, .both first word second⟩
  · exact hasTree_tighter .and row

theorem hasTree_unaryRules (member : right ∈ rules (.expression .unary))
    (row : RowHasTrees right ts) : HasTree (.expression .unary) ts := by
  simp only [rules, List.mem_cons, List.not_mem_nil, or_false] at member
  rcases member with rfl | rfl | rfl
  case inr.inr => exact hasTree_tighter .unary row
  all_goals
    simp only [spelled_part_iff, spelled_token_iff, spelled_nil_iff] at row
    obtain ⟨_, _, rfl, operator, _, _, rfl, ⟨_, operand⟩, rfl⟩ := row
    rw [List.append_nil]
    exact ⟨_, .unary (by rw [operator]; rfl) operand⟩

theorem hasTree_callRules (member : right ∈ rules (.expression .call))
    (row : RowHasTrees right ts) :
    HasTree (.expression .call) ts := by
  simp only [rules, List.mem_cons, List.not_mem_nil, or_false] at member
  rcases member with rfl | rfl | rfl
  · simp only [spelled_part_iff, spelled_token_iff, spelled_nil_iff] at row
    obtain ⟨_, _, rfl, ⟨_, callee⟩, _, _, rfl, left, _, _, rfl, right, rfl⟩ := row
    exact ⟨_, by simpa using Expression.call callee left .none right⟩
  · simp only [spelled_part_iff, spelled_token_iff, spelled_nil_iff] at row
    obtain ⟨_, _, rfl, ⟨_, callee⟩, _, _, rfl, left, _, _, rfl, ⟨_, _, arguments⟩, _, _, rfl, right,
      rfl⟩ := row
    exact ⟨_, by simpa using Expression.call callee left arguments right⟩
  · exact hasTree_tighter .call row

theorem hasTree_primaryRules (legible : ∀ t ∈ ts, t.Legible)
    (member : right ∈ rules (.expression .primary)) (row : RowHasTrees right ts) :
    HasTree (.expression .primary) ts := by
  simp only [rules, List.mem_cons, List.not_mem_nil, or_false] at member
  rcases member with rfl | rfl | rfl | rfl | rfl | rfl | rfl <;>
    simp only [spelled_part_iff, spelled_token_iff, spelled_nil_iff] at row
  case inr.inr.inr.inr.inr.inr =>
    obtain ⟨_, _, rfl, left, _, _, rfl, ⟨_, inside⟩, _, _, rfl, right, rfl⟩ := row
    exact ⟨_, .grouping left inside right⟩
  all_goals
    obtain ⟨t, _, rfl, kind, rfl⟩ := row
    have htoken := legible t (List.mem_singleton_self t)
  · exact ⟨_, .nil kind⟩
  · exact ⟨_, .true kind⟩
  · exact ⟨_, .false kind⟩
  · obtain ⟨_, value⟩ := htoken.number kind
    exact ⟨_, .number kind value⟩
  · obtain ⟨_, text⟩ := htoken.text kind
    exact ⟨_, .text kind text⟩
  · exact ⟨_, .variable kind⟩

theorem hasTree_argumentsRules (member : right ∈ rules .arguments) (row : RowHasTrees right ts) :
    HasTree .arguments ts := by
  simp only [rules, List.mem_cons, List.not_mem_nil, or_false] at member
  rcases member with rfl | rfl <;>
    simp only [spelled_part_iff, spelled_token_iff, spelled_nil_iff] at row
  · obtain ⟨_, _, rfl, ⟨_, value⟩, rfl⟩ := row
    rw [List.append_nil]
    exact ⟨_, _, .last value⟩
  · obtain ⟨_, _, rfl, ⟨_, value⟩, _, _, rfl, comma, _, _, rfl, ⟨_, _, others⟩, rfl⟩ := row
    rw [List.append_nil]
    exact ⟨_, _, .more value comma others⟩

theorem hasTree_parametersRules (member : right ∈ rules .parameters) (row : RowHasTrees right ts) :
    HasTree .parameters ts := by
  simp only [rules, List.mem_cons, List.not_mem_nil, or_false] at member
  rcases member with rfl | rfl <;>
    simp only [spelled_part_iff, spelled_token_iff, spelled_nil_iff] at row
  · obtain ⟨_, _, rfl, name, rfl⟩ := row
    exact ⟨_, _, .last name⟩
  · obtain ⟨_, _, rfl, name, _, _, rfl, comma, _, _, rfl, ⟨_, _, others⟩, rfl⟩ := row
    rw [List.append_nil]
    exact ⟨_, _, .more name comma others⟩

theorem hasTree_variableRules (member : right ∈ rules .variable) (row : RowHasTrees right ts) :
    HasTree .variable ts := by
  simp only [rules, List.mem_cons, List.not_mem_nil, or_false] at member
  rcases member with rfl | rfl <;>
    simp only [spelled_part_iff, spelled_token_iff, spelled_nil_iff] at row
  · obtain ⟨_, _, rfl, word, _, _, rfl, name, _, _, rfl, semicolon, rfl⟩ := row
    exact ⟨_, .bare word name semicolon⟩
  · obtain ⟨_, _, rfl, word, _, _, rfl, name, _, _, rfl, equals, _, _, rfl, ⟨_, value⟩, _, _, rfl,
      semicolon, rfl⟩ := row
    exact ⟨_, .initial word name equals (.intro value semicolon)⟩

theorem hasTree_initializerRules (member : right ∈ rules .initializer)
    (row : RowHasTrees right ts) : HasTree .initializer ts := by
  simp only [rules, List.mem_cons, List.not_mem_nil, or_false] at member
  rcases member with rfl | rfl | rfl <;>
    simp only [spelled_part_iff, spelled_token_iff, spelled_nil_iff] at row
  · obtain ⟨_, _, rfl, semicolon, rfl⟩ := row
    exact ⟨_, .none semicolon⟩
  · obtain ⟨_, _, rfl, ⟨_, parsed⟩, rfl⟩ := row
    rw [List.append_nil]
    exact ⟨_, .variable parsed⟩
  · obtain ⟨_, _, rfl, ⟨_, value⟩, _, _, rfl, semicolon, rfl⟩ := row
    exact ⟨_, .expression (.intro value semicolon)⟩

theorem hasTree_conditionRules (member : right ∈ rules .condition) (row : RowHasTrees right ts) :
    HasTree .condition ts := by
  simp only [rules, List.mem_cons, List.not_mem_nil, or_false] at member
  rcases member with rfl | rfl <;>
    simp only [spelled_part_iff, spelled_token_iff, spelled_nil_iff] at row
  · obtain ⟨_, _, rfl, semicolon, rfl⟩ := row
    exact ⟨_, .none semicolon⟩
  · obtain ⟨_, _, rfl, ⟨_, value⟩, _, _, rfl, semicolon, rfl⟩ := row
    exact ⟨_, .some (.intro value semicolon)⟩

theorem hasTree_incrementRules (member : right ∈ rules .increment) (row : RowHasTrees right ts) :
    HasTree .increment ts := by
  simp only [rules, List.mem_cons, List.not_mem_nil, or_false] at member
  rcases member with rfl | rfl <;>
    simp only [spelled_part_iff, spelled_token_iff, spelled_nil_iff] at row
  · obtain ⟨_, _, rfl, right, rfl⟩ := row
    exact ⟨_, .none right⟩
  · obtain ⟨_, _, rfl, ⟨_, value⟩, _, _, rfl, right, rfl⟩ := row
    exact ⟨_, .some value right⟩

theorem hasTree_statementRules (member : right ∈ rules .statement) (row : RowHasTrees right ts) :
    HasTree .statement ts := by
  simp only [rules, List.mem_cons, List.not_mem_nil, or_false] at member
  rcases member with rfl | rfl | rfl | rfl | rfl | rfl | rfl | rfl | rfl <;>
    simp only [spelled_part_iff, spelled_token_iff, spelled_nil_iff] at row
  · obtain ⟨_, _, rfl, ⟨_, value⟩, _, _, rfl, semicolon, rfl⟩ := row
    exact ⟨_, _, .expression (.intro value semicolon)⟩
  · obtain ⟨_, _, rfl, word, _, _, rfl, ⟨_, value⟩, _, _, rfl, semicolon, rfl⟩ := row
    exact ⟨_, _, .print word (.intro value semicolon)⟩
  · obtain ⟨_, _, rfl, word, _, _, rfl, semicolon, rfl⟩ := row
    exact ⟨_, _, .giveBackNothing word semicolon⟩
  · obtain ⟨_, _, rfl, word, _, _, rfl, ⟨_, value⟩, _, _, rfl, semicolon, rfl⟩ := row
    exact ⟨_, _, .giveBack word (.intro value semicolon)⟩
  · obtain ⟨_, _, rfl, ⟨_, _, _, _, rfl, left, inside, right⟩, rfl⟩ := row
    rw [List.append_nil]
    exact ⟨_, _, .block left inside right⟩
  · obtain ⟨_, _, rfl, word, _, _, rfl, left, _, _, rfl, ⟨_, test⟩, _, _, rfl, right, _, _, rfl,
      ⟨_, _, yes⟩, rfl⟩ := row
    rw [List.append_nil]
    exact ⟨_, _, .ifThen word left test right yes⟩
  · obtain ⟨_, _, rfl, word, _, _, rfl, left, _, _, rfl, ⟨_, test⟩, _, _, rfl, right, _, _, rfl,
      ⟨_, _, yes⟩, _, _, rfl, elseWord, _, _, rfl, ⟨_, _, no⟩, rfl⟩ := row
    rw [List.append_nil]
    exact Statement.choice word left test right yes elseWord no
  · obtain ⟨_, _, rfl, word, _, _, rfl, left, _, _, rfl, ⟨_, test⟩, _, _, rfl, right, _, _, rfl,
      ⟨_, _, body⟩, rfl⟩ := row
    rw [List.append_nil]
    exact ⟨_, _, .while word left test right body⟩
  · obtain ⟨_, _, rfl, word, _, _, rfl, left, _, _, rfl, ⟨_, initial⟩, _, _, rfl, ⟨_, condition⟩,
      _, _, rfl, ⟨_, increment⟩, _, _, rfl, ⟨_, _, body⟩, rfl⟩ := row
    exact ⟨_, _, by simpa using Statement.for word left initial condition increment body⟩

theorem hasTree_blockRules (member : right ∈ rules .block) (row : RowHasTrees right ts) :
    HasTree .block ts := by
  simp only [rules, List.mem_cons, List.not_mem_nil, or_false] at member
  subst member
  simp only [spelled_part_iff, spelled_token_iff, spelled_nil_iff] at row
  obtain ⟨left, _, rfl, hleft, us, _, rfl, ⟨ss, inside⟩, right, _, rfl, hright, rfl⟩ := row
  exact ⟨left, us, right, ss, rfl, hleft, inside, hright⟩

theorem hasTree_functionRules (member : right ∈ rules .function) (row : RowHasTrees right ts) :
    HasTree .function ts := by
  simp only [rules, List.mem_cons, List.not_mem_nil, or_false] at member
  rcases member with rfl | rfl <;>
    simp only [spelled_part_iff, spelled_token_iff, spelled_nil_iff] at row
  · obtain ⟨_, _, rfl, word, _, _, rfl, name, _, _, rfl, left, _, _, rfl, right, _, _, rfl,
      ⟨_, _, _, _, rfl, brace, body, close⟩, rfl⟩ := row
    exact ⟨_, by simpa using Declaration.function word name left .none right brace body close⟩
  · obtain ⟨_, _, rfl, word, _, _, rfl, name, _, _, rfl, left, _, _, rfl, ⟨_, _, parameters⟩, _, _,
      rfl, right, _, _, rfl, ⟨_, _, _, _, rfl, brace, body, close⟩, rfl⟩ := row
    exact ⟨_, by
      simpa using Declaration.function word name left parameters right brace body close⟩

theorem hasTree_declarationRules (member : right ∈ rules .declaration)
    (row : RowHasTrees right ts) : HasTree .declaration ts := by
  simp only [rules, List.mem_cons, List.not_mem_nil, or_false] at member
  rcases member with rfl | rfl | rfl <;>
    simp only [spelled_part_iff, spelled_nil_iff] at row
  · obtain ⟨_, _, rfl, ⟨_, parsed⟩, rfl⟩ := row
    rw [List.append_nil]
    exact ⟨_, parsed⟩
  · obtain ⟨_, _, rfl, ⟨_, parsed⟩, rfl⟩ := row
    rw [List.append_nil]
    exact ⟨_, .variable parsed⟩
  · obtain ⟨_, _, rfl, ⟨_, _, parsed⟩, rfl⟩ := row
    rw [List.append_nil]
    exact ⟨_, .statement parsed⟩

theorem hasTree_declarationsRules (member : right ∈ rules .declarations)
    (row : RowHasTrees right ts) : HasTree .declarations ts := by
  simp only [rules, List.mem_cons, List.not_mem_nil, or_false] at member
  rcases member with rfl | rfl <;>
    simp only [spelled_part_iff, spelled_nil_iff] at row
  · subst row
    exact ⟨_, .nil⟩
  · obtain ⟨_, _, rfl, ⟨_, first⟩, _, _, rfl, ⟨_, others⟩, rfl⟩ := row
    rw [List.append_nil]
    exact ⟨_, .cons first others⟩

/-- Every rule for a part gives a tree to what it stands for. -/
theorem hasTree_of_rule (legible : ∀ t ∈ ts, t.Legible) (n : Nonterminal)
    (member : right ∈ rules n) (row : RowHasTrees right ts) : HasTree n ts := by
  cases n with
  | declarations => exact hasTree_declarationsRules member row
  | declaration => exact hasTree_declarationRules member row
  | function => exact hasTree_functionRules member row
  | parameters => exact hasTree_parametersRules member row
  | «variable» => exact hasTree_variableRules member row
  | statement => exact hasTree_statementRules member row
  | block => exact hasTree_blockRules member row
  | initializer => exact hasTree_initializerRules member row
  | condition => exact hasTree_conditionRules member row
  | increment => exact hasTree_incrementRules member row
  | arguments => exact hasTree_argumentsRules member row
  | expression level =>
      cases level with
      | none =>
          obtain rfl := List.mem_singleton.mp member
          exact hasTree_tighter .none row
      | assignment => exact hasTree_assignmentRules member row
      | or => exact hasTree_orRules member row
      | and => exact hasTree_andRules member row
      | equality | comparison | term | factor => exact hasTree_binary (by decide) member row
      | unary => exact hasTree_unaryRules member row
      | call => exact hasTree_callRules member row
      | primary => exact hasTree_primaryRules legible member row

/-- A derivable list whose literals stand for values has a tree. -/
theorem exists_tree (derives : Derives [.part .declarations] (ts.map (·.kind)))
    (legible : ∀ t ∈ ts, t.Legible) : ∃ ss, Declarations ts ss := by
  have heach := derives.each (P := fun n ks => ∀ ts : List Token, ts.map (·.kind) = ks →
    (∀ t ∈ ts, t.Legible) → HasTree n ts) fun n right ks member each ts hkinds hlegible =>
      hasTree_of_rule hlegible n member (spelled_of_each each hkinds hlegible)
  obtain ⟨_, _, rfl, ⟨ss, parsed⟩, hnil⟩ := spelled_part_iff.mp (spelled_of_each heach rfl legible)
  obtain rfl := spelled_nil_iff.mp hnil
  exact ⟨ss, by rwa [List.append_nil]⟩

end Grammar

end Lox
