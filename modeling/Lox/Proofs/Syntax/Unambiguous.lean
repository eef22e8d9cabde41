import Lox.Proofs.Syntax.Derivation

/-!
# Every program has one tree

A list of tokens is a program in at most one way. For expressions this is what precedence climbing
shows: an operand is read, and then operators as long as they bind tightly enough. Reading leaves
nothing to choose, and every expression of the grammar is read, with the tree that the grammar gives
it. Statements are told apart by their first tokens, and an `else` by the statement in front of it,
which is closed.

## Main definitions

* `Grammar.Climbs` — an expression at the front of some tokens, as precedence climbing reads it.

## Main results

* `climbs_unique`, `expression_climbs` — reading leaves no choice, and reads every expression.
* `declarations_unique` — a list of tokens has at most one tree.
-/

namespace Lox.Grammar

variable {t : Token} {ts us rest rest' : List Token} {e e' : Expr} {es es' : List Expr}
  {level least : Precedence}

/-- The kind of the first token. -/
def upcoming : List Token → TokenKind
  | [] => .endOfInput
  | t :: _ => t.kind

/-! ### Precedence climbing -/

/-- The expression that one token stands for. -/
def atom? (t : Token) : Option Expr :=
  match t.kind with
  | .number => (Number.read? t.lexeme).map fun x => .literal (.number x)
  | .string => (Compiler.unquote? t.lexeme).map fun s => .literal (.text s)
  | .nilWord => some (.literal .nil)
  | .trueWord => some (.literal (.bool true))
  | .falseWord => some (.literal (.bool false))
  | .identifier => some (.variable t.lexeme)
  | _ => none

/-- What a token between two operands makes of them, and how tightly operators in the right operand
have to bind. -/
def between? : TokenKind → Option (Precedence × (Expr → Expr → Expr))
  | .andWord => some (.and, .both)
  | .orWord => some (.or, .either)
  | kind => (BinaryOperator.ofToken? kind).map fun op => (op.precedence.tighter, .binary op)

mutual

/-- An expression is read at the front of some tokens: an operand, and operators that bind at least
as tightly as asked for. -/
inductive Climbs : (least : Precedence) → List Token → Expr → List Token → Prop
  | intro {least : Precedence} {ts us rest : List Token} {first e : Expr} : Operand ts first us →
      Operators least first us e rest → Climbs least ts e rest

/-- An operand is read. -/
inductive Operand : List Token → Expr → List Token → Prop
  | atom {t : Token} {rest : List Token} {e : Expr} : atom? t = some e → upcoming rest ≠ .equal →
      Operand (t :: rest) e rest
  | grouping {left right : Token} {ts rest : List Token} {e : Expr} : left.kind = .leftParen →
      Climbs .assignment ts e (right :: rest) → right.kind = .rightParen →
        Operand (left :: ts) e rest
  | unary {t : Token} {op : UnaryOperator} {ts rest : List Token} {e : Expr} :
      UnaryOperator.ofToken? t.kind = some op → Climbs .unary ts e rest →
        Operand (t :: ts) (.unary op e) rest
  | assign {name equals : Token} {ts rest : List Token} {e : Expr} : name.kind = .identifier →
      equals.kind = .equal → Climbs .assignment ts e rest →
        Operand (name :: equals :: ts) (.assign name.lexeme e) rest

/-- Operators behind an operand are read. -/
inductive Operators : (least : Precedence) → Expr → List Token → Expr → List Token → Prop
  | stop {least : Precedence} {e : Expr} {rest : List Token} :
      (Precedence.ofToken (upcoming rest)).rank < least.rank → Operators least e rest e rest
  | between {least deeper : Precedence} {make : Expr → Expr → Expr} {t : Token}
      {ts us rest : List Token} {left right e : Expr} : between? t.kind = some (deeper, make) →
      least.rank ≤ (Precedence.ofToken t.kind).rank → Climbs deeper ts right us →
      Operators least (make left right) us e rest → Operators least left (t :: ts) e rest
  | call {least : Precedence} {t : Token} {ts us rest : List Token} {callee e : Expr}
      {es : List Expr} : t.kind = .leftParen → least.rank ≤ Precedence.call.rank →
      Listed ts es us → Operators least (.call callee es) us e rest →
        Operators least callee (t :: ts) e rest

/-- Arguments are read, and the parenthesis behind them. -/
inductive Listed : List Token → List Expr → List Token → Prop
  | none {right : Token} {rest : List Token} : right.kind = .rightParen →
      Listed (right :: rest) [] rest
  | last {right : Token} {ts rest : List Token} {e : Expr} :
      Climbs .assignment ts e (right :: rest) → right.kind = .rightParen → Listed ts [e] rest
  | more {comma : Token} {ts us rest : List Token} {e : Expr} {es : List Expr} :
      Climbs .assignment ts e (comma :: us) → comma.kind = .comma → Listed us es rest →
        Listed ts (e :: es) rest

end

/-- An operand does not start with the end of a list of arguments. -/
theorem Operand.not_rightParen (operand : Operand (t :: ts) e rest) : t.kind ≠ .rightParen := by
  intro kind
  cases operand with
  | atom hatom => simp [atom?, kind] at hatom
  | grouping left => cases kind.symm.trans left
  | unary operator => simp [UnaryOperator.ofToken?, kind] at operator
  | assign name => cases kind.symm.trans name

mutual

/-- Reading an expression leaves no choice. -/
theorem climbs_unique {least : Precedence} {ts rest rest' : List Token} {e e' : Expr} :
    Climbs least ts e rest → Climbs least ts e' rest' → e = e' ∧ rest = rest'
  | .intro first others, .intro first' others' => by
      obtain ⟨rfl, rfl⟩ := operand_unique first first'
      exact operators_unique others others'
termination_by structural first => first

/-- Reading an operand leaves no choice. -/
theorem operand_unique {ts rest rest' : List Token} {e e' : Expr} :
    Operand ts e rest → Operand ts e' rest' → e = e' ∧ rest = rest'
  | .atom hatom hnext, second => by
      cases second with
      | atom hatom' => exact ⟨Option.some.inj (hatom.symm.trans hatom'), rfl⟩
      | grouping left => simp [atom?, left] at hatom
      | unary operator =>
          unfold UnaryOperator.ofToken? at operator
          split at operator <;> simp_all [atom?]
      | assign _ equals => exact absurd equals hnext
  | .grouping left inside right, second => by
      cases second with
      | atom hatom => simp [atom?, left] at hatom
      | grouping _ inside' =>
          obtain ⟨rfl, heq⟩ := climbs_unique inside inside'
          exact ⟨rfl, (List.cons.inj heq).2⟩
      | unary operator => simp [UnaryOperator.ofToken?, left] at operator
      | assign name => cases left.symm.trans name
  | .unary operator operand, second => by
      cases second with
      | atom hatom =>
          unfold UnaryOperator.ofToken? at operator
          split at operator <;> simp_all [atom?]
      | grouping left => simp [UnaryOperator.ofToken?, left] at operator
      | unary operator' operand' =>
          obtain ⟨rfl, rfl⟩ := climbs_unique operand operand'
          exact ⟨by rw [Option.some.inj (operator.symm.trans operator')], rfl⟩
      | assign name => simp [UnaryOperator.ofToken?, name] at operator
  | .assign name equals value, second => by
      cases second with
      | atom _ hnext => exact absurd equals hnext
      | grouping left => cases name.symm.trans left
      | unary operator => simp [UnaryOperator.ofToken?, name] at operator
      | assign _ _ value' =>
          obtain ⟨rfl, rfl⟩ := climbs_unique value value'
          exact ⟨rfl, rfl⟩
termination_by structural first => first

/-- Reading operators leaves no choice. -/
theorem operators_unique {least : Precedence} {first e e' : Expr} {ts rest rest' : List Token} :
    Operators least first ts e rest → Operators least first ts e' rest' → e = e' ∧ rest = rest'
  | .stop hlt, second => by
      cases second with
      | stop => exact ⟨rfl, rfl⟩
      | between _ hle => exact absurd hlt (Nat.not_lt.mpr hle)
      | call left hle =>
          rw [upcoming, left] at hlt
          exact absurd hlt (Nat.not_lt.mpr hle)
  | .between hbetween hle right others, second => by
      cases second with
      | stop hlt => exact absurd hlt (Nat.not_lt.mpr hle)
      | between hbetween' _ right' others' =>
          obtain ⟨rfl, rfl⟩ := Prod.mk.inj (Option.some.inj (hbetween.symm.trans hbetween'))
          obtain ⟨rfl, rfl⟩ := climbs_unique right right'
          exact operators_unique others others'
      | call left => simp [between?, BinaryOperator.ofToken?, left] at hbetween
  | .call left hle arguments others, second => by
      cases second with
      | stop hlt =>
          rw [upcoming, left] at hlt
          exact absurd hlt (Nat.not_lt.mpr hle)
      | between hbetween => simp [between?, BinaryOperator.ofToken?, left] at hbetween
      | call _ _ arguments' others' =>
          obtain ⟨rfl, rfl⟩ := listed_unique arguments arguments'
          exact operators_unique others others'
termination_by structural first => first

/-- Reading arguments leaves no choice. -/
theorem listed_unique {ts rest rest' : List Token} {es es' : List Expr} :
    Listed ts es rest → Listed ts es' rest' → es = es' ∧ rest = rest'
  | .none right, second => by
      cases second with
      | none => exact ⟨rfl, rfl⟩
      | last value => cases value with | intro first => exact (first.not_rightParen right).elim
      | more value => cases value with | intro first => exact (first.not_rightParen right).elim
  | .last value right, second => by
      cases second with
      | none right' => cases value with | intro first => exact (first.not_rightParen right').elim
      | last value' =>
          obtain ⟨rfl, heq⟩ := climbs_unique value value'
          exact ⟨rfl, (List.cons.inj heq).2⟩
      | more value' comma =>
          obtain ⟨rfl, heq⟩ := climbs_unique value value'
          rw [(List.cons.inj heq).1] at right
          cases right.symm.trans comma
  | .more value comma others, second => by
      cases second with
      | none right => cases value with | intro first => exact (first.not_rightParen right).elim
      | last value' right =>
          obtain ⟨rfl, heq⟩ := climbs_unique value value'
          rw [(List.cons.inj heq).1] at comma
          cases comma.symm.trans right
      | more value' _ others' =>
          obtain ⟨rfl, heq⟩ := climbs_unique value value'
          rw [← (List.cons.inj heq).2] at others'
          obtain ⟨rfl, rfl⟩ := listed_unique others others'
          exact ⟨rfl, rfl⟩
termination_by structural first => first

end

/-! ### Expressions -/

/-- How tightly operators in the last operand of an expression have to bind. -/
def innermost : Precedence → Precedence
  | .assignment => .assignment
  | .or => .or
  | .and => .and
  | .unary => .unary
  | level => level.tighter

/-- A token may end an expression of a level: it is not taken for a part of its last operand. -/
def Ends (level : Precedence) (kind : TokenKind) : Prop :=
  kind ≠ .equal ∧ (Precedence.ofToken kind).rank < (innermost level).rank

instance (level : Precedence) (kind : TokenKind) : Decidable (Ends level kind) :=
  inferInstanceAs (Decidable (_ ∧ _))

variable {kind : TokenKind}

/-- What ends an expression ends its tighter parts. -/
theorem Ends.tighter (ends : Ends level kind) : Ends level.tighter kind := by
  have hle : (innermost level).rank ≤ (innermost level.tighter).rank := by cases level <;> decide
  exact ⟨ends.1, Nat.lt_of_lt_of_le ends.2 hle⟩

theorem rank_tighter (level : Precedence) : level.rank ≤ level.tighter.rank := by
  cases level <;> decide

/-- The operators that are told from their token. -/
theorem between?_binary {op : BinaryOperator} (operator : BinaryOperator.ofToken? kind = some op) :
    between? kind = some (op.precedence.tighter, .binary op) := by
  unfold between?
  split
  · cases operator
  · cases operator
  · rw [operator]
    rfl

/-- The token of an operator ends the left operand. -/
theorem ends_binary {op : BinaryOperator} (operator : BinaryOperator.ofToken? kind = some op) :
    Ends op.precedence kind := by
  refine ⟨?_, ?_⟩
  · rintro rfl
    cases operator
  · rw [BinaryOperator.precedence_eq operator]
    cases op <;> decide

/-- A token of a kind that may end an expression. -/
theorem Ends.token (ends : Ends level kind) (eq : t.kind = kind) :
    Ends level (upcoming (t :: rest)) := by
  rwa [upcoming, eq]

theorem innermost_binary (op : BinaryOperator) :
    innermost op.precedence = op.precedence.tighter := by
  cases op <;> rfl

/-- An operand of one token is read. -/
theorem climbs_atom (hatom : atom? t = some e) (ends : Ends level (upcoming rest))
    (others : Operators least e rest e' rest') : Climbs least ([t] ++ rest) e' rest' :=
  .intro (.atom hatom ends.1) others

mutual

/-- An expression is read, and so is what goes on behind it. -/
theorem expression_climbs {level least : Precedence} {ts rest rest' : List Token} {e e' : Expr} :
    Expression level ts e → least.rank ≤ level.rank → Ends level (upcoming rest) →
      Operators least e rest e' rest' → Climbs least (ts ++ rest) e' rest'
  | .number kind value, _, ends, others =>
      climbs_atom (by simp [atom?, kind, value]) ends others
  | .text kind value, _, ends, others => climbs_atom (by simp [atom?, kind, value]) ends others
  | .nil kind, _, ends, others | .true kind, _, ends, others | .false kind, _, ends, others
  | .variable kind, _, ends, others => climbs_atom (by simp [atom?, kind]) ends others
  | .grouping left inside right, _, _, others => by
      have hends : Ends .assignment (upcoming (_ :: rest)) := Ends.token (by decide) right
      have hinside := expression_climbs inside (Nat.le_refl _) hends (.stop hends.2)
      rw [List.cons_append, List.cons_append, List.append_assoc]
      exact .intro (.grouping left hinside right) others
  | .call callee left arguments right, hle, _, others => by
      have harguments := arguments_listed rest arguments right
      rw [List.append_assoc, List.append_assoc]
      exact expression_climbs callee hle (.token (by decide) left)
        (.call left hle harguments others)
  | .unary operator operand, _, ends, others =>
      .intro (.unary operator (expression_climbs operand (Nat.le_refl _) ends
        (.stop ends.2))) others
  | @Expression.binary t op _ _ _ _ first operator second, hle, ends, others => by
      have hright := expression_climbs second (Nat.le_refl _) ends.tighter
        (.stop (innermost_binary op ▸ ends.2))
      rw [List.append_assoc]
      exact expression_climbs first hle (ends_binary operator)
        (.between (between?_binary operator) (by rwa [BinaryOperator.precedence_eq operator]) hright
          others)
  | .both first word second, hle, ends, others => by
      have hright := expression_climbs second (Nat.le_refl _) ends (.stop ends.2)
      rw [List.append_assoc]
      exact expression_climbs first (Nat.le_trans hle (by decide)) (.token (by decide) word)
        (.between (by rw [word]; rfl) (by rwa [word]) hright others)
  | .either first word second, hle, ends, others => by
      have hright := expression_climbs second (Nat.le_refl _) ends (.stop ends.2)
      rw [List.append_assoc]
      exact expression_climbs first (Nat.le_trans hle (by decide)) (.token (by decide) word)
        (.between (by rw [word]; rfl) (by rwa [word]) hright others)
  | .assign name equals value, _, ends, others =>
      .intro (.assign name equals
        (expression_climbs value (Nat.le_refl _) ends (.stop ends.2))) others
  | .tighter parsed, hle, ends, others =>
      expression_climbs parsed (Nat.le_trans hle (rank_tighter _)) ends.tighter others

/-- Arguments are read. -/
theorem arguments_listed {right : Token} {ts : List Token} {es : List Expr} (rest : List Token) :
    Arguments ts es → right.kind = .rightParen → Listed (ts ++ ([right] ++ rest)) es rest
  | .none, right => .none right
  | .last value, right => by
      have hends : Ends .assignment (upcoming (_ :: rest)) := Ends.token (by decide) right
      exact .last (expression_climbs value (Nat.le_refl _) hends (.stop hends.2)) right
  | @Arguments.more separator _ us _ _ _ value comma others, right => by
      have hothers := arguments_listed rest others right
      have hends : ∀ us, Ends .assignment (upcoming (separator :: us)) :=
        fun _ => .token (by decide) comma
      rw [List.append_assoc]
      exact .more (expression_climbs value (Nat.le_refl _) (hends _)
        (.stop (hends _).2)) comma hothers

end

/-- The expression at the front of some tokens is told by them, if what comes next may end it. -/
theorem value_unique {ts' : List Token} (first : Expression .assignment ts e)
    (second : Expression .assignment ts' e') (eq : ts ++ rest = ts' ++ rest')
    (ends : Ends .assignment (upcoming rest)) (ends' : Ends .assignment (upcoming rest')) :
    e = e' ∧ rest = rest' :=
  climbs_unique (expression_climbs first (Nat.le_refl _) ends (.stop ends.2))
    (eq ▸ expression_climbs second (Nat.le_refl _) ends' (.stop ends'.2))

/-- An expression in front of a token of a kind is told by the tokens. -/
theorem value_unique_of_token {ts' : List Token} {last last' : Token}
    (first : Expression .assignment ts e) (second : Expression .assignment ts' e')
    (eq : ts ++ last :: rest = ts' ++ last' :: rest') (ends : Ends .assignment kind)
    (hlast : last.kind = kind) (hlast' : last'.kind = kind) : e = e' ∧ rest = rest' :=
  (value_unique first second eq (ends.token hlast) (ends.token hlast')).imp_right fun h =>
    (List.cons.inj h).2

/-! ### First tokens -/

/-- The first token of a part that can be derived. -/
theorem front_of_derives {n : Nonterminal} (derives : Derives [.part n] (ts.map (·.kind)))
    (real : n ≠ .declarations) (eq : ts ++ rest = t :: us) : starts n t.kind := by
  obtain ⟨kind, ls, hts, hstarts⟩ := derives.starts real
  obtain ⟨first, others, rfl, rfl, -⟩ := List.map_eq_cons_iff.mp hts
  rwa [← (List.cons.inj eq).1]

/-- The first token of an expression. -/
theorem Expression.front (parsed : Expression level ts e) (eq : ts ++ rest = t :: us) :
    startsExpression t.kind :=
  front_of_derives (expression_derives parsed) nofun eq

/-- The first token of an expression that ends with a semicolon. -/
theorem Ended.front (ended : Ended ts e) (eq : ts ++ rest = t :: us) : startsExpression t.kind := by
  obtain ⟨value, -⟩ := ended
  exact value.front ((List.append_assoc ..).symm.trans eq)

/-- The first token of the declaration of a variable. -/
theorem VariableDeclaration.front {s : Stmt} (parsed : VariableDeclaration ts s)
    (eq : ts ++ rest = t :: us) : t.kind = .varWord :=
  of_decide_eq_true (front_of_derives (variable_derives parsed) nofun eq)

/-- The first token of a statement. -/
theorem Statement.front {isOpen : Bool} {s : Stmt} (parsed : Statement isOpen ts s)
    (eq : ts ++ rest = t :: us) : startsStatement t.kind :=
  front_of_derives (statement_derives parsed) nofun eq

/-- The first token of a declaration. -/
theorem Declaration.front {s : Stmt} (parsed : Declaration ts s) (eq : ts ++ rest = t :: us) :
    starts .declaration t.kind :=
  front_of_derives (declaration_derives parsed) nofun eq

/-! ### Parts of statements -/

variable {ts' us' : List Token}

theorem ended_unique (first : Ended ts e) (second : Ended ts' e') (eq : ts ++ rest = ts' ++ rest') :
    e = e' ∧ rest = rest' := by
  obtain ⟨value, semicolon⟩ := first
  obtain ⟨value', semicolon'⟩ := second
  rw [List.append_assoc, List.append_assoc] at eq
  exact value_unique_of_token value value' eq (by decide) semicolon semicolon'

theorem parameters_unique {names names' : List String} {right right' : Token}
    (first : Parameters ts names) (second : Parameters ts' names')
    (eq : ts ++ right :: rest = ts' ++ right' :: rest') (hright : right.kind = .rightParen)
    (hright' : right'.kind = .rightParen) : names = names' ∧ rest = rest' := by
  induction first generalizing ts' names' with
  | none => cases second <;> grind
  | last name => cases second <;> grind
  | more name comma others ih =>
      cases second with
      | none => grind
      | last => grind
      | more name' comma' others' =>
        simp only [List.cons_append, List.cons.injEq] at eq
        obtain ⟨hnames, hrest⟩ := ih others' eq.2.2
        exact ⟨by rw [eq.1, hnames], hrest⟩

theorem variable_unique {s s' : Stmt} (first : VariableDeclaration ts s)
    (second : VariableDeclaration ts' s') (eq : ts ++ rest = ts' ++ rest') :
    s = s' ∧ rest = rest' := by
  cases first with
  | bare word name semicolon =>
    cases second with
    | bare => grind
    | initial => grind
  | initial word name equals ended =>
    cases second with
    | bare => grind
    | initial _ _ _ ended' =>
      simp only [List.cons_append, List.cons.injEq] at eq
      obtain ⟨he, hrest⟩ := ended_unique ended ended' eq.2.2.2
      exact ⟨by rw [eq.2.1, he], hrest⟩

theorem initializer_unique {ss ss' : List Stmt} (first : Initializer ts ss)
    (second : Initializer ts' ss') (eq : ts ++ rest = ts' ++ rest') : ss = ss' ∧ rest = rest' := by
  cases first with
  | none semicolon =>
      cases second with
      | none => grind
      | «variable» parsed => exact nomatch semicolon.symm.trans (parsed.front eq.symm)
      | expression ended => exact absurd (ended.front eq.symm) (by rw [semicolon]; decide)
  | «variable» parsed =>
      cases second with
      | none semicolon => exact nomatch semicolon.symm.trans (parsed.front eq)
      | «variable» parsed' =>
          obtain ⟨rfl, hrest⟩ := variable_unique parsed parsed' eq
          exact ⟨rfl, hrest⟩
      | expression ended =>
          cases parsed with
          | bare word | initial word =>
              exact absurd (ended.front eq.symm) (by rw [word]; decide)
  | expression ended =>
      cases second with
      | none semicolon => exact absurd (ended.front eq) (by rw [semicolon]; decide)
      | «variable» parsed =>
          cases parsed with
          | bare word | initial word => exact absurd (ended.front eq) (by rw [word]; decide)
      | expression ended' =>
          obtain ⟨rfl, hrest⟩ := ended_unique ended ended' eq
          exact ⟨rfl, hrest⟩

theorem condition_unique {c c' : Option Expr} (first : Condition ts c) (second : Condition ts' c')
    (eq : ts ++ rest = ts' ++ rest') : c = c' ∧ rest = rest' := by
  cases first with
  | none semicolon =>
      cases second with
      | none => grind
      | some ended => exact absurd (ended.front eq.symm) (by rw [semicolon]; decide)
  | some ended =>
      cases second with
      | none semicolon => exact absurd (ended.front eq) (by rw [semicolon]; decide)
      | some ended' =>
          obtain ⟨rfl, hrest⟩ := ended_unique ended ended' eq
          exact ⟨rfl, hrest⟩

theorem increment_unique {c c' : Option Expr} (first : Increment ts c) (second : Increment ts' c')
    (eq : ts ++ rest = ts' ++ rest') : c = c' ∧ rest = rest' := by
  cases first with
  | none right =>
      cases second with
      | none => grind
      | some value =>
          rw [List.append_assoc] at eq
          exact absurd (value.front eq.symm) (by rw [right]; decide)
  | some value right =>
      rw [List.append_assoc] at eq
      cases second with
      | none right' => exact absurd (value.front eq) (by rw [right']; decide)
      | some value' right' =>
          rw [List.append_assoc] at eq
          obtain ⟨rfl, hrest⟩ := value_unique_of_token value value' eq (by decide) right right'
          exact ⟨rfl, hrest⟩

/-! ### Statements -/

/-- What may come behind a statement. An `else` would be taken in by one that is open. -/
def Behind (isOpen : Bool) (rest : List Token) : Prop := isOpen → upcoming rest ≠ .elseWord

/-- What may come behind declarations. -/
def Closing (rest : List Token) : Prop := ∀ t ∈ rest.head?, t.kind = .rightBrace

theorem closing_nil : Closing [] := fun _ ht => by cases ht

theorem closing_of_kind (kind : t.kind = .rightBrace) : Closing (t :: rest) := fun _ ht => by
  obtain rfl := Option.some.inj ht
  exact kind

/-- What closes declarations is no declaration. -/
theorem Closing.not_declaration {s : Stmt} (closing : Closing rest) (parsed : Declaration ts s) :
    rest ≠ ts ++ us := by
  rintro rfl
  cases hfront : ts ++ us with
  | nil =>
      obtain ⟨rfl, -⟩ := List.append_eq_nil_iff.mp hfront
      obtain ⟨_, _, hts, -⟩ := (declaration_derives parsed).starts nofun
      cases hts
  | cons t others =>
      have hkind : t.kind = .rightBrace := closing t (by rw [hfront]; rfl)
      exact absurd (parsed.front hfront) (by rw [hkind]; decide)

/-- No `else` is behind a declaration. -/
theorem behind_declaration {ss : List Stmt} (others : Declarations us ss) (closing : Closing rest) :
    Behind true (us ++ rest) := by
  intro _ helse
  cases hfront : us ++ rest with
  | nil =>
      rw [hfront] at helse
      cases helse
  | cons t ts =>
      rw [hfront] at helse
      replace helse : t.kind = .elseWord := helse
      cases others with
      | nil =>
          obtain rfl : rest = t :: ts := hfront
          exact nomatch helse.symm.trans (closing t rfl)
      | cons first =>
          rw [List.append_assoc] at hfront
          exact absurd (first.front hfront) (by rw [helse]; decide)

section

variable {isOpen : Bool} {ts ts' rest rest' : List Token} {word semicolon : Token} {e : Expr}
  {s : Stmt}

theorem expressionStatement_unique (ended : Ended ts e) (second : Statement isOpen ts' s)
    (eq : ts ++ rest = ts' ++ rest') : .expression e = s ∧ rest = rest' := by
  cases second with
  | expression ended' =>
      obtain ⟨rfl, hrest⟩ := ended_unique ended ended' eq
      exact ⟨rfl, hrest⟩
  | print word | giveBackNothing word | giveBack word | block word | ifThen word
  | ifElse word | «while» word | «for» word =>
      exact absurd (ended.front eq) (by rw [word]; decide)

theorem print_unique (kind : word.kind = .printWord) (ended : Ended ts e)
    (second : Statement isOpen ts' s) (eq : word :: ts ++ rest = ts' ++ rest') :
    .print e = s ∧ rest = rest' := by
  cases second with
  | expression ended' => exact absurd (ended'.front eq.symm) (by rw [kind]; decide)
  | print _ ended' =>
      obtain ⟨rfl, hrest⟩ := ended_unique ended ended' (List.cons.inj eq).2
      exact ⟨rfl, hrest⟩
  | _ => grind

theorem giveBackNothing_unique (kind : word.kind = .returnWord)
    (kind' : semicolon.kind = .semicolon) (second : Statement isOpen ts' s)
    (eq : [word, semicolon] ++ rest = ts' ++ rest') :
    .giveBack (.literal .nil) = s ∧ rest = rest' := by
  cases second with
  | expression ended' => exact absurd (ended'.front eq.symm) (by rw [kind]; decide)
  | giveBack _ ended' =>
      exact absurd (ended'.front (List.cons.inj eq).2.symm) (by rw [kind']; decide)
  | _ => grind

theorem giveBack_unique (kind : word.kind = .returnWord) (ended : Ended ts e)
    (second : Statement isOpen ts' s) (eq : word :: ts ++ rest = ts' ++ rest') :
    .giveBack e = s ∧ rest = rest' := by
  cases second with
  | expression ended' => exact absurd (ended'.front eq.symm) (by rw [kind]; decide)
  | giveBackNothing _ semicolon =>
      exact absurd (ended.front (List.cons.inj eq).2) (by rw [semicolon]; decide)
  | giveBack _ ended' =>
      obtain ⟨rfl, hrest⟩ := ended_unique ended ended' (List.cons.inj eq).2
      exact ⟨rfl, hrest⟩
  | _ => grind

end

mutual

/-- The statement at the front of some tokens is told by them. -/
theorem statement_unique {isOpen isOpen' : Bool} {ts ts' rest rest' : List Token} {s s' : Stmt} :
    Statement isOpen ts s → Statement isOpen' ts' s' → ts ++ rest = ts' ++ rest' →
      Behind isOpen rest → Behind isOpen' rest' → s = s' ∧ rest = rest'
  | .expression ended, second, eq, _, _ => expressionStatement_unique ended second eq
  | .print word ended, second, eq, _, _ => print_unique word ended second eq
  | .giveBackNothing word semicolon, second, eq, _, _ =>
      giveBackNothing_unique word semicolon second eq
  | .giveBack word ended, second, eq, _, _ => giveBack_unique word ended second eq
  | .block left body right, second, eq, _, _ => by
      cases second with
      | expression ended' => exact absurd (ended'.front eq.symm) (by rw [left]; decide)
      | block _ body' right' =>
          rw [List.cons_append, List.cons_append, List.append_assoc, List.append_assoc] at eq
          obtain ⟨rfl, hrest⟩ := declarations_unique body body' (List.cons.inj eq).2
            (closing_of_kind right) (closing_of_kind right')
          exact ⟨rfl, (List.cons.inj hrest).2⟩
      | _ => grind
  | .ifThen word left condition right yes, second, eq, behind, behind' => by
      simp only [List.cons_append, List.append_assoc] at eq
      cases second with
      | expression ended' => exact absurd (ended'.front eq.symm) (by rw [word]; decide)
      | ifThen _ _ condition' right' yes' =>
          simp only [List.cons_append, List.append_assoc, List.cons.injEq] at eq
          obtain ⟨rfl, heq⟩ :=
            value_unique_of_token condition condition' eq.2.2 (by decide) right right'
          obtain ⟨rfl, hrest⟩ :=
            statement_unique yes yes' heq (fun _ => behind rfl) fun _ => behind' rfl
          exact ⟨rfl, hrest⟩
      | ifElse _ _ condition' right' yes' other =>
          simp only [List.cons_append, List.append_assoc, List.cons.injEq] at eq
          obtain ⟨rfl, heq⟩ :=
            value_unique_of_token condition condition' eq.2.2 (by decide) right right'
          -- the `else` of the second one would be behind the first one
          obtain ⟨-, rfl⟩ := statement_unique yes yes' heq (fun _ => behind rfl) nofun
          exact absurd other (behind rfl)
      | _ => grind
  | .ifElse word left condition right yes other no, second, eq, behind, behind' => by
      simp only [List.cons_append, List.append_assoc] at eq
      cases second with
      | expression ended' => exact absurd (ended'.front eq.symm) (by rw [word]; decide)
      | ifThen _ _ condition' right' yes' =>
          simp only [List.cons_append, List.append_assoc, List.cons.injEq] at eq
          obtain ⟨rfl, heq⟩ :=
            value_unique_of_token condition condition' eq.2.2 (by decide) right right'
          obtain ⟨-, hrest⟩ := statement_unique yes yes' heq nofun fun _ => behind' rfl
          rw [← hrest] at behind'
          exact absurd other (behind' rfl)
      | ifElse _ _ condition' right' yes' other' no' =>
          simp only [List.cons_append, List.append_assoc, List.cons.injEq] at eq
          obtain ⟨rfl, heq⟩ :=
            value_unique_of_token condition condition' eq.2.2 (by decide) right right'
          obtain ⟨rfl, heq⟩ := statement_unique yes yes' heq nofun nofun
          obtain ⟨rfl, hrest⟩ := statement_unique no no' (List.cons.inj heq).2 behind behind'
          exact ⟨rfl, hrest⟩
      | _ => grind
  | .while word left condition right body, second, eq, behind, behind' => by
      simp only [List.cons_append, List.append_assoc] at eq
      cases second with
      | expression ended' => exact absurd (ended'.front eq.symm) (by rw [word]; decide)
      | «while» _ _ condition' right' body' =>
          simp only [List.cons_append, List.append_assoc, List.cons.injEq] at eq
          obtain ⟨rfl, heq⟩ :=
            value_unique_of_token condition condition' eq.2.2 (by decide) right right'
          obtain ⟨rfl, hrest⟩ := statement_unique body body' heq behind behind'
          exact ⟨rfl, hrest⟩
      | _ => grind
  | .for word left initial condition increment body, second, eq, behind, behind' => by
      simp only [List.cons_append, List.append_assoc] at eq
      cases second with
      | expression ended' => exact absurd (ended'.front eq.symm) (by rw [word]; decide)
      | «for» _ _ initial' condition' increment' body' =>
          simp only [List.cons_append, List.append_assoc, List.cons.injEq] at eq
          obtain ⟨rfl, heq⟩ := initializer_unique initial initial' eq.2.2
          obtain ⟨rfl, heq⟩ := condition_unique condition condition' heq
          obtain ⟨rfl, heq⟩ := increment_unique increment increment' heq
          obtain ⟨rfl, hrest⟩ := statement_unique body body' heq behind behind'
          exact ⟨rfl, hrest⟩
      | _ => grind
termination_by structural first => first

/-- The declaration at the front of some tokens is told by them. -/
theorem declaration_unique {ts ts' rest rest' : List Token} {s s' : Stmt} :
    Declaration ts s → Declaration ts' s' → ts ++ rest = ts' ++ rest' →
      Behind true rest → Behind true rest' → s = s' ∧ rest = rest'
  | .statement parsed, second, eq, behind, behind' => by
      cases second with
      | statement parsed' =>
          exact statement_unique parsed parsed' eq (fun _ => behind rfl) fun _ => behind' rfl
      | «variable» parsed' =>
          cases parsed' with
          | bare word | initial word => exact absurd (parsed.front eq) (by rw [word]; decide)
      | function word =>
          simp only [List.cons_append] at eq
          exact absurd (parsed.front eq) (by rw [word]; decide)
  | .variable parsed, second, eq, _, _ => by
      cases second with
      | statement parsed' =>
          cases parsed with
          | bare word | initial word =>
              exact absurd (parsed'.front eq.symm) (by rw [word]; decide)
      | «variable» parsed' => exact variable_unique parsed parsed' eq
      | function word =>
          simp only [List.cons_append] at eq
          exact nomatch word.symm.trans (parsed.front eq)
  | .function word name left parameters right brace body close, second, eq, _, _ => by
      simp only [List.cons_append, List.append_assoc] at eq
      cases second with
      | statement parsed' => exact absurd (parsed'.front eq.symm) (by rw [word]; decide)
      | «variable» parsed' => exact nomatch word.symm.trans (parsed'.front eq.symm)
      | function _ _ _ parameters' right' _ body' close' =>
          simp only [List.cons_append, List.append_assoc, List.cons.injEq] at eq
          obtain ⟨-, hname, -, heq⟩ := eq
          obtain ⟨rfl, heq⟩ := parameters_unique parameters parameters' heq right right'
          obtain ⟨rfl, hrest⟩ := declarations_unique body body' (List.cons.inj heq).2
            (closing_of_kind close) (closing_of_kind close')
          exact ⟨by rw [hname], (List.cons.inj hrest).2⟩
termination_by structural first => first

/-- The declarations at the front of some tokens are told by them. -/
theorem declarations_unique {ts ts' rest rest' : List Token} {ss ss' : List Stmt} :
    Declarations ts ss → Declarations ts' ss' → ts ++ rest = ts' ++ rest' →
      Closing rest → Closing rest' → ss = ss' ∧ rest = rest'
  | .nil, second, eq, closing, _ => by
      cases second with
      | nil => exact ⟨rfl, eq⟩
      | cons first' others' =>
          rw [List.append_assoc] at eq
          exact (closing.not_declaration first' eq).elim
  | .cons first others, second, eq, closing, closing' => by
      rw [List.append_assoc] at eq
      cases second with
      | nil => exact (closing'.not_declaration first eq.symm).elim
      | cons first' others' =>
          rw [List.append_assoc] at eq
          obtain ⟨rfl, heq⟩ := declaration_unique first first' eq
            (behind_declaration others closing)
            (behind_declaration others' closing')
          obtain ⟨rfl, hrest⟩ := declarations_unique others others' heq closing closing'
          exact ⟨rfl, hrest⟩
termination_by structural first => first

end

/-- A list of tokens has at most one tree. -/
theorem Declarations.unique {ss ss' : List Stmt} (first : Declarations ts ss)
    (second : Declarations ts ss') : ss = ss' :=
  (declarations_unique first second rfl closing_nil closing_nil).1

end Lox.Grammar
