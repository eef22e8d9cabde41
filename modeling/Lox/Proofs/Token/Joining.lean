import Lox.Proofs.Token.Lexer

/-!
# The tokens of two texts, one behind the other

No token goes over a newline, except a string that is closed later. So if a text has no malformed
token, the tokens of the text and a newline and another text are those of the first and then those
of the second. The second text then stands on later lines, and nothing but the lines of its tokens
tells.

## Main definitions

* `Token.Like` — tokens that differ in their lines only.
* `Token.Worded` — an identifier has a name.

## Main results

* `ofSource_joined` — the tokens of two texts.
* `worded_ofSource` — identifiers have names.
-/

namespace Lox

/-- Tokens that differ in their lines only. -/
structure Token.Like (t t' : Token) : Prop where
  kind : t'.kind = t.kind
  lexeme : t'.lexeme = t.lexeme

/-- Every token is like itself. -/
theorem Token.Like.refl (t : Token) : t.Like t := ⟨rfl, rfl⟩

theorem Token.Like.trans {t t' t'' : Token} (first : t.Like t') (second : t'.Like t'') :
    t.Like t'' :=
  ⟨second.kind.trans first.kind, second.lexeme.trans first.lexeme⟩

/-- An identifier has a name. -/
def Token.Worded (t : Token) : Prop := t.kind = .identifier → t.lexeme ≠ ""

namespace Cursor

/-! ### Other lines -/

/-- Where a text stands makes no difference to what is skipped. -/
theorem skipBlank_line (text : List Char) (line line' : UInt32) :
    (skipBlank text line').1 = (skipBlank text line).1 := by
  fun_induction skipBlank text line generalizing line' with
  | case1 => simp [skipBlank]
  | case2 _ _ ih => simpa [skipBlank] using ih (line' + 1)
  | case3 _ _ ih | case4 _ _ ih | case5 _ _ ih | case6 _ _ ih => simpa [skipBlank] using ih line'
  | case7 => rw [skipBlank] <;> assumption

/-- A token at a place on another line. -/
structure Shifted (result result' : Token × Cursor) : Prop where
  token : result.1.Like result'.1
  rest : result'.2.rest = result.2.rest
  owed : result'.2.owed = result.2.owed

/-- Where a text stands makes no difference to the token that it starts with. -/
theorem tokenHere_line (text : List Char) (line line' : UInt32) :
    Shifted (tokenHere { rest := text, line }) (tokenHere { rest := text, line := line' }) := by
  unfold tokenHere
  cases text with
  | nil => exact ⟨⟨rfl, rfl⟩, rfl, rfl⟩
  | cons c rest =>
      dsimp only
      split
      · exact ⟨⟨rfl, rfl⟩, rfl, rfl⟩
      · split
        · exact ⟨⟨rfl, rfl⟩, rfl, rfl⟩
        · split
          · unfold stringLiteral
            dsimp only
            split <;> exact ⟨⟨rfl, rfl⟩, rfl, rfl⟩
          · split <;> exact ⟨⟨rfl, rfl⟩, rfl, rfl⟩

/-- The next token at a place on another line. -/
theorem token_line (text : List Char) (owed : Nat) (line line' : UInt32) :
    Shifted (token { rest := text, line, owed }) (token { rest := text, line := line', owed }) := by
  unfold token
  cases owed with
  | succ owed => exact ⟨⟨rfl, rfl⟩, rfl, rfl⟩
  | zero =>
      dsimp only
      rw [skipBlank_line text line line']
      exact tokenHere_line _ _ _

/-- Where a text stands makes a difference to the lines of its tokens only. -/
theorem tokens_line (bytes : Nat) (text : List Char) (owed : Nat) (line line' : UInt32) :
    List.Forall₂ Token.Like (tokens bytes { rest := text, line, owed }).1
      (tokens bytes { rest := text, line := line', owed }).1 := by
  induction bytes generalizing text owed line line' with
  | zero => exact .nil
  | succ bytes ih =>
      have hshifted := token_line text owed line line'
      simp only [tokens]
      rw [hshifted.token.kind]
      split
      · exact .nil
      · refine .cons hshifted.token ?_
        have hrest := ih (token { rest := text, line, owed }).2.rest
          (token { rest := text, line, owed }).2.owed (token { rest := text, line, owed }).2.line
          (token { rest := text, line := line', owed }).2.line
        rw [← hshifted.rest, ← hshifted.owed] at hrest
        rwa [show (⟨(token { rest := text, line := line', owed }).2.rest,
          (token { rest := text, line, owed }).2.line,
          (token { rest := text, line := line', owed }).2.owed⟩ : Cursor) =
            (token { rest := text, line, owed }).2 by rw [hshifted.rest, hshifted.owed]] at hrest

/-! ### Tokens in front of a newline -/

variable {text more : List Char}

/-- What goes on up to a character that a newline is not, ends in front of the newline. -/
theorem takeWhile_newline {p : Char → Bool} (stops : p '\n' = false) :
    (text ++ '\n' :: more).takeWhile p = text.takeWhile p := by
  rw [List.takeWhile_append]
  split
  · rename_i hall
    rw [List.takeWhile_cons_of_neg (by simp [stops]), List.append_nil,
      (List.takeWhile_prefix p).eq_of_length hall]
  · rfl

/-- What stands between tokens, in front of a newline. -/
theorem skipBlank_newline (text more : List Char) (line : UInt32) :
    skipBlank (text ++ '\n' :: more) line =
      if (skipBlank text line).1 = [] then skipBlank more ((skipBlank text line).2 + 1)
      else ((skipBlank text line).1 ++ '\n' :: more, (skipBlank text line).2) := by
  fun_induction skipBlank text line with
  | case1 => simp [skipBlank]
  | case2 _ _ ih | case3 _ _ ih | case4 _ _ ih | case5 _ _ ih =>
      rw [List.cons_append, skipBlank]
      exact ih
  | case6 line rest ih =>
      rw [List.cons_append, List.cons_append, skipBlank, List.dropWhile_append]
      split
      · rename_i hnil
        rw [List.isEmpty_iff.mp hnil, skipBlank] at ih
        simp only [List.nil_append, skipBlank, if_pos] at ih
        rw [List.isEmpty_iff.mp hnil, skipBlank, List.dropWhile_cons_of_neg (by simp), skipBlank]
        rfl
      · exact ih
  | case7 text line hnil hnewline hblank hreturn htab hcomment =>
      rw [if_neg hnil]
      obtain ⟨c, text, rfl⟩ := List.exists_cons_of_ne_nil hnil
      rw [List.cons_append, skipBlank]
      all_goals
        intros
        cases text <;> simp_all

/-- A token that ends in front of a newline, whatever comes behind that. -/
theorem take_newline (text : List Char) {line : UInt32} {length : Nat} (kind : TokenKind)
    (le : length ≤ text.length) :
    take { rest := text ++ '\n' :: more, line } kind length =
      ((take { rest := text, line } kind length).1,
        { (take { rest := text, line } kind length).2 with
          rest := (take { rest := text, line } kind length).2.rest ++ '\n' :: more }) := by
  simp only [take]
  rw [List.take_append_of_le_length le, List.drop_append_of_le_length le]

/-- A number ends in front of a newline. -/
theorem numberLength_newline : numberLength (text ++ '\n' :: more) = numberLength text := by
  have hle : (text.takeWhile Char.isDigit).length ≤ text.length :=
    (List.takeWhile_prefix _).length_le
  unfold numberLength
  dsimp only
  rw [takeWhile_newline (by decide), List.drop_append_of_le_length hle]
  generalize (text.takeWhile Char.isDigit).length = whole
  generalize text.drop whole = others
  cases others with
  | nil => rfl
  | cons c others =>
      by_cases hpoint : c = '.'
      · subst hpoint
        simp only [List.cons_append]
        rw [takeWhile_newline (by decide)]
      · simp [hpoint]

/-- A number is made of what is there. -/
theorem numberLength_le (text : List Char) : numberLength text ≤ text.length := by
  have hle : (text.takeWhile Char.isDigit).length ≤ text.length :=
    (List.takeWhile_prefix _).length_le
  unfold numberLength
  dsimp only
  split
  · rename_i others hdrop
    have hlength := congrArg List.length hdrop
    have hle' : (others.takeWhile Char.isDigit).length ≤ others.length :=
      (List.takeWhile_prefix _).length_le
    rw [List.length_drop, List.length_cons] at hlength
    split <;> omega
  · exact hle

/-- A mark ends in front of a newline. -/
theorem mark?_newline (more : List Char) (real : text ≠ []) :
    mark? (text ++ '\n' :: more) = mark? text := by
  fun_cases mark? text
  case case20 =>
    obtain ⟨c, text, rfl⟩ := List.exists_cons_of_ne_nil real
    cases text with
    | nil =>
        rw [List.cons_append, List.nil_append, mark?]
        all_goals
          rintro _ heq
          cases heq
          all_goals solve_by_elim
    | cons d text =>
        rw [List.cons_append, List.cons_append, mark?]
        all_goals
          rintro _ heq
          cases heq
          all_goals solve_by_elim
  all_goals first
    | rfl
    | rename_i rest hsingle
      -- a mark that another character could make longer
      cases rest with
      | nil => rfl
      | cons d rest =>
          have hd : d ≠ '=' := fun heq => hsingle rest (by rw [heq])
          simp [mark?, hd]

/-- A mark is made of what is there. -/
theorem mark?_le {kind : TokenKind} {length : Nat} (found : mark? text = some (kind, length)) :
    length ≤ text.length := by
  unfold mark? at found
  split at found <;> cases found <;> simp

/-- A string that is closed ends in front of a newline. -/
theorem stringLiteral_newline {line : UInt32}
    (proper : (stringLiteral { rest := text, line }).1.kind ≠ .malformed) :
    stringLiteral { rest := text ++ '\n' :: more, line } =
      ((stringLiteral { rest := text, line }).1,
        { (stringLiteral { rest := text, line }).2 with
          rest := (stringLiteral { rest := text, line }).2.rest ++ '\n' :: more }) := by
  cases text with
  | nil => exact absurd rfl proper
  | cons c text =>
      unfold stringLiteral at proper ⊢
      simp only [List.cons_append, List.drop_succ_cons, List.drop_zero] at proper ⊢
      by_cases hopen : text.length = (text.takeWhile (· ≠ '"')).length
      · rw [if_pos hopen] at proper
        exact absurd rfl proper
      · have hle : (text.takeWhile (· ≠ '"')).length ≤ text.length :=
          (List.takeWhile_prefix _).length_le
        have hinside : (text ++ '\n' :: more).takeWhile (· ≠ '"') = text.takeWhile (· ≠ '"') := by
          rw [List.takeWhile_append, if_neg (Ne.symm hopen)]
        rw [hinside, if_neg hopen, if_neg (by rw [List.length_append]; omega)]
        exact take_newline (c :: text) .string (by rw [List.length_cons]; omega)

/-- A token that is not malformed ends in front of a newline, whatever comes behind that. -/
theorem tokenHere_newline {line : UInt32} (real : text ≠ [])
    (proper : (tokenHere { rest := text, line }).1.kind ≠ .malformed) :
    tokenHere { rest := text ++ '\n' :: more, line } =
      ((tokenHere { rest := text, line }).1,
        { (tokenHere { rest := text, line }).2 with
          rest := (tokenHere { rest := text, line }).2.rest ++ '\n' :: more }) := by
  obtain ⟨c, rest, rfl⟩ := List.exists_cons_of_ne_nil real
  have hmark := mark?_newline more real
  have hnumber : numberLength (c :: rest ++ '\n' :: more) = numberLength (c :: rest) :=
    numberLength_newline
  have hword : (c :: rest ++ '\n' :: more).takeWhile continuesWord =
      (c :: rest).takeWhile continuesWord := takeWhile_newline (by decide)
  unfold tokenHere at proper ⊢
  simp only [List.cons_append] at hmark hnumber hword proper ⊢
  rw [hmark, hnumber, hword]
  split
  · exact take_newline _ _ (List.takeWhile_prefix _).length_le
  · rename_i hletter
    rw [if_neg hletter] at proper
    split
    · exact take_newline _ _ (numberLength_le _)
    · rename_i hdigit
      rw [if_neg hdigit] at proper
      split
      · rename_i hquote
        rw [if_pos hquote] at proper
        exact stringLiteral_newline proper
      · rename_i hquote
        rw [if_neg hquote] at proper
        split
        · rename_i hfound
          exact take_newline _ _ (mark?_le hfound)
        · simp_all

/-- A text that does not end here starts with a token. -/
theorem tokenHere_real {line : UInt32} (real : text ≠ []) :
    (tokenHere { rest := text, line }).1.kind ≠ .endOfInput := by
  obtain ⟨c, rest, rfl⟩ := List.exists_cons_of_ne_nil real
  unfold tokenHere
  dsimp only
  split
  · exact (ofWord_spec _).1
  · split
    · exact TokenKind.noConfusion
    · split
      · unfold stringLiteral
        dsimp only
        split <;> exact TokenKind.noConfusion
      · split
        · rename_i hfound
          exact (mark?_spec hfound).2.1
        · exact TokenKind.noConfusion

/-- The next token, in front of a newline: it is the same, or there is none. -/
theorem token_newline (more : List Char) {line : UInt32}
    (proper : (token { rest := text, line }).1.kind ≠ .malformed) :
    ((token { rest := text, line }).1.kind = .endOfInput ∧ ∃ line',
      token { rest := text ++ '\n' :: more, line } = token { rest := more, line := line' }) ∨
    (token { rest := text, line }).1.kind ≠ .endOfInput ∧
      token { rest := text ++ '\n' :: more, line } =
        ((token { rest := text, line }).1,
          { (token { rest := text, line }).2 with
            rest := (token { rest := text, line }).2.rest ++ '\n' :: more }) := by
  unfold token at proper ⊢
  simp only at proper ⊢
  rw [skipBlank_newline]
  by_cases hnone : (skipBlank text line).1 = []
  · rw [if_pos hnone, hnone]
    exact .inl ⟨rfl, _, rfl⟩
  · rw [if_neg hnone]
    exact .inr ⟨tokenHere_real hnone, tokenHere_newline hnone proper⟩

/-- A token that is not malformed owes nothing. -/
theorem owed_of_proper {line : UInt32}
    (proper : (token { rest := text, line }).1.kind ≠ .malformed) :
    (token { rest := text, line }).2.owed = 0 := by
  unfold token tokenHere at proper ⊢
  simp only at proper ⊢
  generalize skipBlank text line = place at proper ⊢
  obtain ⟨text, line⟩ := place
  cases text with
  | nil => rfl
  | cons c rest =>
      dsimp only at proper ⊢
      split
      · rfl
      · split
        · rfl
        · split
          · unfold stringLiteral
            dsimp only
            split <;> rfl
          · split
            · rfl
            · simp_all

/-! ### All tokens -/

/-- A budget for every byte ahead is as good as any larger one. -/
theorem tokens_budget {m n : Nat} {cursor : Cursor} (enough : cursor.size ≤ m)
    (enough' : cursor.size ≤ n) : tokens m cursor = tokens n cursor := by
  induction m generalizing n cursor with
  | zero =>
      have hkind := (token_promises cursor).drained (by omega)
      cases n with
      | zero => rfl
      | succ n => simp [tokens, hkind]
  | succ m ih =>
      by_cases hkind : cursor.token.1.kind = .endOfInput
      · cases n <;> simp [tokens, hkind]
      · have hless := (token_promises cursor).taken hkind
        cases n with
        | zero => omega
        | succ n =>
            simp only [tokens, if_neg hkind]
            rw [ih (show cursor.token.2.size ≤ m by omega) (show cursor.token.2.size ≤ n by omega)]

/-- How many bytes of a text are ahead where nothing is owed. -/
theorem size_eq (text : List Char) (line : UInt32) :
    size { rest := text, line } = String.utf8Len text := rfl

/-- The tokens of a text without malformed ones, in front of a newline. -/
theorem tokens_newline (text more : List Char) {m n : Nat} {line : UInt32}
    (enough : String.utf8Len text ≤ m) (enough' : String.utf8Len (text ++ '\n' :: more) ≤ n)
    (proper : ∀ t ∈ (tokens m { rest := text, line }).1, t.kind ≠ .malformed) :
    ∃ k line', String.utf8Len more ≤ k ∧ (tokens n { rest := text ++ '\n' :: more, line }).1 =
      (tokens m { rest := text, line }).1 ++ (tokens k { rest := more, line := line' }).1 := by
  have hmore : ∀ text : List Char, String.utf8Len more ≤ String.utf8Len (text ++ '\n' :: more) :=
    fun text => utf8Len_of_suffix (((List.suffix_cons _ _).trans (List.suffix_append _ _)))
  induction m generalizing n text line with
  | zero =>
      have hkind := (token_promises { rest := text, line }).drained (Nat.le_zero.mp enough)
      obtain ⟨-, line', htoken⟩ := (token_newline more (by rw [hkind]; decide)).resolve_right
        fun h => h.1 hkind
      refine ⟨n, line', (hmore text).trans enough', ?_⟩
      cases n <;> simp [tokens, htoken]
  | succ m ih =>
      by_cases hkind : (token { rest := text, line }).1.kind = .endOfInput
      · obtain ⟨-, line', htoken⟩ :=
          (token_newline more (by rw [hkind]; decide)).resolve_right fun h => h.1 hkind
        refine ⟨n, line', (hmore text).trans enough', ?_⟩
        cases n <;> simp [tokens, htoken, hkind]
      · simp only [tokens, if_neg hkind] at proper ⊢
        have hproper := proper _ (List.mem_cons_self ..)
        obtain ⟨-, htoken⟩ := (token_newline more hproper).resolve_left
          fun h => hkind h.1
        have howed := owed_of_proper hproper
        have hless := (token_promises { rest := text, line }).taken hkind
        have hless' := (token_promises { rest := text ++ '\n' :: more, line }).taken
          (by rw [htoken]; exact hkind)
        rw [htoken] at hless'
        rw [size_eq] at hless hless'
        generalize token { rest := text, line } = first at htoken howed hless hless' hkind proper ⊢
        obtain ⟨t, rest, line₁, owed⟩ := first
        obtain rfl : owed = 0 := howed
        rw [size_eq] at hless hless'
        cases n with
        | zero => omega
        | succ n =>
            obtain ⟨k, line', hk, hrest⟩ := ih rest (show String.utf8Len rest ≤ m by omega)
              (show String.utf8Len (rest ++ '\n' :: more) ≤ n by simp only at hless'; omega)
              fun s hs => proper s (List.mem_cons_of_mem _ hs)
            refine ⟨k, line', hk, ?_⟩
            have htoken : token { rest := text ++ '\n' :: more, line } =
                (t, { rest := rest ++ '\n' :: more, line := line₁ }) := htoken
            rw [tokens, htoken]
            simp only [if_neg hkind, hrest, List.cons_append]

/-! ### Names -/

/-- A token of a positive length has a text. -/
theorem take_worded {cursor : Cursor} {kind : TokenKind} {length : Nat} (pos : 0 < length)
    (real : cursor.rest ≠ []) : (cursor.take kind length).1.Worded := by
  intro _ hnone
  have hnil : cursor.rest.take length = [] := by
    simpa [take, String.ext_iff] using congrArg String.toList hnone
  rcases List.take_eq_nil_iff.mp hnil with hzero | hnil
  · omega
  · exact real hnil

/-- An identifier that starts right here has a name. -/
theorem tokenHere_worded (cursor : Cursor) : cursor.tokenHere.1.Worded := by
  unfold tokenHere
  cases hrest : cursor.rest with
  | nil =>
      intro hkind
      cases hkind
  | cons c rest =>
      have hreal : cursor.rest ≠ [] := by simp [hrest]
      dsimp only
      split
      · rename_i hword
        refine take_worded ?_ hreal
        rw [List.takeWhile_cons_of_pos (by simp [continuesWord, hword])]
        exact Nat.succ_pos _
      · split
        · intro hkind
          cases hkind
        · split
          · unfold stringLiteral
            dsimp only
            split
            all_goals
              intro hkind
              cases hkind
          · split
            · rename_i hfound
              exact take_worded (mark?_spec hfound).1 hreal
            · intro hkind
              cases hkind

/-- Identifiers have names. -/
theorem tokens_worded (bytes : Nat) (cursor : Cursor) :
    ∀ t ∈ (tokens bytes cursor).1, t.Worded := by
  have hfirst : ∀ cursor : Cursor, cursor.token.1.Worded := fun cursor => by
    unfold token
    split
    · intro hkind
      cases hkind
    · exact tokenHere_worded _
  induction bytes generalizing cursor with
  | zero => simp [tokens]
  | succ bytes ih =>
      simp only [tokens]
      split
      · exact List.forall_mem_nil _
      · exact List.forall_mem_cons.mpr ⟨hfirst cursor, ih _⟩

end Cursor

/-- Identifiers have names. -/
theorem worded_ofSource (source : String) :
    ∀ t ∈ (TokenStream.ofSource source).pending, t.Worded :=
  Cursor.tokens_worded _ _

/-- The tokens of a text without malformed ones, and of another one behind it and a newline. -/
theorem ofSource_joined {a b : String}
    (proper : ∀ t ∈ (TokenStream.ofSource a).pending, t.kind ≠ .malformed) :
    ∃ later, (TokenStream.ofSource (a ++ "\n" ++ b)).pending =
        (TokenStream.ofSource a).pending ++ later ∧
      List.Forall₂ Token.Like (TokenStream.ofSource b).pending later := by
  have htext : (a ++ "\n" ++ b).toList = a.toList ++ '\n' :: b.toList := by simp
  have hall : ∀ s : String, String.utf8Len s.toList = s.utf8ByteSize := fun s => by
    simp [String.utf8Len_toList]
  obtain ⟨k, line, hk, htokens⟩ := Cursor.tokens_newline a.toList b.toList (hall a).le
    (n := (a ++ "\n" ++ b).utf8ByteSize) (by rw [← htext]; exact (hall _).le) proper
  have hlike := Cursor.tokens_line b.utf8ByteSize b.toList 0 1 line
  have hbudget : Cursor.tokens b.utf8ByteSize ⟨b.toList, line, 0⟩ =
    Cursor.tokens k ⟨b.toList, line, 0⟩ :=
    Cursor.tokens_budget (hall b).le hk
  rw [hbudget] at hlike
  refine ⟨(Cursor.tokens k ⟨b.toList, line, 0⟩).1, ?_, hlike⟩
  rw [← htext] at htokens
  exact htokens

end Lox
