import Mathlib.Algebra.GroupWithZero.Nat
import Mathlib.Data.String.Basic
import Lox.Token.Lexer
import Lox.Compile.Expression

/-!
# The tokens of a source

Every token but the end of input takes at least a byte of what is ahead of the cursor, where
the bytes that are still owed count as ahead. So a budget of as many tokens as the source has
bytes is never used up, and the tokens of a source end with the end of input.

## Main definitions

* `Cursor.size` — how many bytes are ahead.
* `TokenStream.Terminated` — streams with an end of input at the end and only there.

## Main results

* `terminated_ofSource` — the stream of every source is terminated.
* `ofSource_short` — it has no more tokens than the source has bytes.
-/

namespace Lox

/-- A string token has a text between its quotes. -/
def Token.Readable (t : Token) : Prop :=
  t.kind = .string → ∃ text, Compiler.unquote? t.lexeme = some text

/-- The input ends, it ends once, and what it holds can be read. -/
structure TokenStream.Terminated (tokens : TokenStream) : Prop where
  final : tokens.final.kind = .endOfInput
  pending : ∀ t ∈ tokens.pending, t.kind ≠ .endOfInput
  readable : ∀ t ∈ tokens.pending, t.Readable

namespace Cursor

/-- How many bytes are ahead. -/
def size (cursor : Cursor) : Nat := String.utf8Len cursor.rest + cursor.owed

/-- Dropping characters drops bytes. -/
theorem utf8Len_of_suffix {xs ys : List Char} (suffix : xs <:+ ys) :
    String.utf8Len xs ≤ String.utf8Len ys := by
  obtain ⟨zs, rfl⟩ := suffix
  rw [String.utf8Len_append]
  omega

/-- Dropping at least one character drops at least one byte. -/
theorem utf8Len_drop_lt {xs : List Char} {n : Nat} (some : xs ≠ []) (pos : 0 < n) :
    String.utf8Len (xs.drop n) < String.utf8Len xs := by
  obtain ⟨x, xs, rfl⟩ := List.exists_cons_of_ne_nil some
  obtain ⟨n, rfl⟩ := Nat.exists_eq_succ_of_ne_zero (Nat.ne_of_gt pos)
  have hle := utf8Len_of_suffix (List.drop_suffix n xs)
  have hpos := x.utf8Size_pos
  rw [List.drop_succ_cons, String.utf8Len_cons]
  omega

/-- What stands between tokens is no longer ahead once it has been skipped. -/
theorem utf8Len_skipBlank (text : List Char) (line : UInt32) :
    String.utf8Len (skipBlank text line).1 ≤ String.utf8Len text := by
  fun_induction skipBlank text line with
  | case1 => exact Nat.le_refl _
  | case2 _ _ ih | case3 _ _ ih | case4 _ _ ih | case5 _ _ ih =>
      rw [String.utf8Len_cons]
      omega
  | case6 text _ ih =>
      have := utf8Len_of_suffix (List.dropWhile_suffix (l := text) (· ≠ '\n'))
      rw [String.utf8Len_cons, String.utf8Len_cons]
      omega
  | case7 => exact Nat.le_refl _

/-- The length of a mark is positive, and no mark is a string or the end of input. -/
theorem mark?_spec {text : List Char} {kind : TokenKind} {length : Nat}
    (found : mark? text = some (kind, length)) :
    0 < length ∧ kind ≠ .endOfInput ∧ kind ≠ .string := by
  unfold mark? at found
  split at found <;> cases found <;> decide

/-- A word is never a string nor the end of input. -/
theorem ofWord_spec (word : String) :
    TokenKind.ofWord word ≠ .endOfInput ∧ TokenKind.ofWord word ≠ .string := by
  unfold TokenKind.ofWord
  split <;> decide

/-- A string literal with both its quotes can be read. -/
theorem unquote?_quoted (inside : List Char) :
    Compiler.unquote? (String.ofList ('"' :: (inside ++ ['"']))) =
      some (String.ofList inside) := by
  unfold Compiler.unquote?
  rw [String.toList_ofList]
  cases inside with
  | nil => rfl
  | cons c inside =>
      simp only [List.cons_append]
      rw [if_pos]
      · rw [show c :: (inside ++ ['"']) = (c :: inside) ++ ['"'] from rfl, List.dropLast_concat]
      · exact ⟨rfl, by simp; rfl⟩

/-- What one token promises: it is the end of input, or it takes a byte of those ahead. -/
structure Promises (before : Nat) (t : Token) (after : Cursor) : Prop where
  taken : t.kind ≠ .endOfInput → after.size < before
  drained : before = 0 → t.kind = .endOfInput
  readable : t.Readable

/-- A token of a positive length. -/
theorem take_promises {cursor : Cursor} {kind : TokenKind} {length : Nat} (pos : 0 < length)
    (real : cursor.rest ≠ []) (other : kind ≠ .string) :
    Promises (String.utf8Len cursor.rest) (cursor.take kind length).1
      (cursor.take kind length).2 := by
  have hlt := utf8Len_drop_lt real pos
  refine ⟨fun _ => hlt, fun hzero => ?_, fun hkind => absurd hkind other⟩
  omega

/-- A text goes up to its first quote, or it has none. -/
theorem takeWhile_quote (text : List Char) :
    text.takeWhile (· ≠ '"') = text ∨
      ∃ more, text = text.takeWhile (· ≠ '"') ++ '"' :: more := by
  induction text with
  | nil => exact .inl rfl
  | cons c text ih =>
      by_cases hquote : c = '"'
      · exact .inr ⟨text, by simp [hquote]⟩
      · rw [List.takeWhile_cons_of_pos (by simpa using hquote)]
        rcases ih with hall | ⟨more, hmore⟩
        · exact .inl (by rw [hall])
        · exact .inr ⟨more, by rw [List.cons_append, ← hmore]⟩

/-- A string literal. -/
theorem stringLiteral_promises {cursor : Cursor} {rest : List Char}
    (quote : cursor.rest = '"' :: rest) :
    Promises (String.utf8Len cursor.rest) cursor.stringLiteral.1 cursor.stringLiteral.2 := by
  have hpos : 0 < String.utf8Len cursor.rest := by
    rw [quote, String.utf8Len_cons]
    exact Nat.lt_of_lt_of_le (Char.utf8Size_pos _) (Nat.le_add_left _ _)
  have hover : String.utf8Len cursor.rest = 0 → False := fun hzero => by omega
  have hinside := takeWhile_quote rest
  unfold stringLiteral
  simp only [show cursor.rest.drop 1 = rest by rw [quote]; rfl]
  generalize rest.takeWhile (· ≠ '"') = inside at hinside
  split
  · exact ⟨fun _ => hpos, fun hzero => (hover hzero).elim, nofun⟩
  · rename_i hclosed
    obtain ⟨more, rfl⟩ : ∃ more, rest = inside ++ '"' :: more :=
      hinside.resolve_left fun hall => hclosed (by rw [hall])
    refine ⟨fun _ => utf8Len_drop_lt (by simp [quote]) (Nat.succ_pos _),
      fun hzero => (hover hzero).elim, fun _ => ⟨String.ofList inside, ?_⟩⟩
    have htake : cursor.rest.take (inside.length + 2) = '"' :: (inside ++ ['"']) := by
      rw [quote, List.take_succ_cons, List.take_append, List.take_of_length_le (by omega)]
      simp
    simp only [take, htake]
    exact unquote?_quoted inside

/-- The token that starts right here. -/
theorem tokenHere_promises (cursor : Cursor) :
    Promises (String.utf8Len cursor.rest) cursor.tokenHere.1 cursor.tokenHere.2 := by
  unfold tokenHere
  cases hrest : cursor.rest with
  | nil => exact ⟨fun h => absurd rfl h, fun _ => rfl, nofun⟩
  | cons c rest =>
      have hreal : cursor.rest ≠ [] := by simp [hrest]
      simp only
      rw [← hrest]
      split
      · rename_i hword
        have hlength : 0 < (cursor.rest.takeWhile continuesWord).length := by
          rw [hrest, List.takeWhile_cons_of_pos (by simp [continuesWord, hword])]
          exact Nat.succ_pos _
        exact take_promises hlength hreal (ofWord_spec _).2
      · split
        · rename_i hdigit
          refine take_promises ?_ hreal (by decide)
          have hwhole : 0 < (cursor.rest.takeWhile Char.isDigit).length := by
            rw [hrest, List.takeWhile_cons_of_pos hdigit]
            exact Nat.succ_pos _
          unfold numberLength
          simp only
          split
          · split <;> omega
          · exact hwhole
        · split
          · rename_i hquote
            exact stringLiteral_promises (hquote ▸ hrest)
          · split
            · rename_i kind length hmark
              obtain ⟨hlength, -, hother⟩ := mark?_spec hmark
              exact take_promises hlength hreal hother
            · have hpos := c.utf8Size_pos
              refine ⟨fun _ => ?_, fun hzero => ?_, nofun⟩
              · simp only [size, hrest, String.utf8Len_cons]
                omega
              · rw [hrest, String.utf8Len_cons] at hzero
                omega

/-- The next token. -/
theorem token_promises (cursor : Cursor) :
    Promises cursor.size cursor.token.1 cursor.token.2 := by
  unfold token
  split
  · rename_i owed howed
    refine ⟨fun _ => ?_, fun hzero => ?_, nofun⟩
    · simp only [size, howed]
      omega
    · simp only [size, howed] at hzero
      omega
  · rename_i howed
    have hskip := utf8Len_skipBlank cursor.rest cursor.line
    have hsize : cursor.size = String.utf8Len cursor.rest := by simp [size, howed]
    obtain ⟨htaken, hover, hreadable⟩ := tokenHere_promises
      { rest := (skipBlank cursor.rest cursor.line).1
        line := (skipBlank cursor.rest cursor.line).2 }
    simp only at htaken hover
    exact ⟨fun hkind => by have := htaken hkind; simp only; omega,
      fun hzero => hover (by omega), hreadable⟩

/-- With a budget for every byte ahead, the tokens go up to the end of input. -/
theorem tokens_spec {bytes : Nat} {cursor : Cursor} (enough : cursor.size ≤ bytes) :
    (tokens bytes cursor).2.kind = .endOfInput ∧
      ∀ t ∈ (tokens bytes cursor).1, t.kind ≠ .endOfInput ∧ t.Readable := by
  induction bytes generalizing cursor with
  | zero => exact ⟨(token_promises cursor).drained (by omega), nofun⟩
  | succ bytes ih =>
      have hpromises := token_promises cursor
      simp only [tokens]
      split
      · rename_i hkind
        exact ⟨hkind, nofun⟩
      · rename_i hkind
        have hless := hpromises.taken hkind
        obtain ⟨hfinal, hothers⟩ := ih (show cursor.token.2.size ≤ bytes by omega)
        refine ⟨hfinal, fun t ht => ?_⟩
        rcases List.mem_cons.mp ht with rfl | ht
        · exact ⟨hkind, hpromises.readable⟩
        · exact hothers t ht

/-! ### How long tokens are -/

/-- A token is as long as the text it takes, or it is one of the complaints. -/
def Brief (before : Nat) (t : Token) (after : Cursor) : Prop :=
  t.lexeme.utf8ByteSize ≤ 24 ∨ t.lexeme.utf8ByteSize + after.size ≤ before

/-- A token made of the text ahead is as long as what it takes. -/
theorem take_brief (cursor : Cursor) (kind : TokenKind) (length : Nat) :
    Brief (String.utf8Len cursor.rest) (cursor.take kind length).1
      (cursor.take kind length).2 := by
  have hsplit := congrArg String.utf8Len (List.take_append_drop length cursor.rest)
  rw [String.utf8Len_append] at hsplit
  refine .inr ?_
  simp only [take, size, String.utf8ByteSize_ofList]
  omega

theorem stringLiteral_brief (cursor : Cursor) :
    Brief (String.utf8Len cursor.rest) cursor.stringLiteral.1 cursor.stringLiteral.2 := by
  unfold stringLiteral
  dsimp only
  split
  · exact .inl (show unterminatedString.utf8ByteSize ≤ 24 by decide)
  · exact take_brief _ _ _

theorem tokenHere_brief (cursor : Cursor) :
    Brief (String.utf8Len cursor.rest) cursor.tokenHere.1 cursor.tokenHere.2 := by
  unfold tokenHere
  split
  · exact .inl (Nat.zero_le _)
  · dsimp only
    split
    · exact take_brief _ _ _
    · split
      · exact take_brief _ _ _
      · split
        · exact stringLiteral_brief cursor
        · split
          · exact take_brief _ _ _
          · exact .inl (show unexpectedCharacter.utf8ByteSize ≤ 24 by decide)

theorem token_brief (cursor : Cursor) :
    Brief cursor.size cursor.token.1 cursor.token.2 := by
  unfold token
  split
  · exact .inl (show unexpectedCharacter.utf8ByteSize ≤ 24 by decide)
  · rename_i howed
    have hskip := utf8Len_skipBlank cursor.rest cursor.line
    have hsize : cursor.size = String.utf8Len cursor.rest := by simp [size, howed]
    have hbrief := tokenHere_brief
      { rest := (skipBlank cursor.rest cursor.line).1
        line := (skipBlank cursor.rest cursor.line).2 }
    simp only [Brief] at hbrief ⊢
    omega

/-- There are no more tokens than bytes, and a byte ahead is good for a byte of a token, or for one
of the complaints. -/
theorem tokens_short {bytes : Nat} {cursor : Cursor} (enough : cursor.size ≤ bytes) :
    (tokens bytes cursor).1.length ≤ bytes ∧
      ((tokens bytes cursor).1.map (·.lexeme.utf8ByteSize)).sum ≤ 24 * cursor.size := by
  induction bytes generalizing cursor with
  | zero => exact ⟨Nat.le_refl _, Nat.zero_le _⟩
  | succ bytes ih =>
      simp only [tokens]
      split
      · exact ⟨Nat.zero_le _, Nat.zero_le _⟩
      · rename_i hkind
        have hless := (token_promises cursor).taken hkind
        have hbrief := token_brief cursor
        have hrest := ih (show cursor.token.2.size ≤ bytes by omega)
        unfold Brief at hbrief
        simp only [List.length_cons, List.map_cons, List.sum_cons]
        omega

end Cursor

/-- The stream of every source is terminated. -/
theorem terminated_ofSource (source : String) : (TokenStream.ofSource source).Terminated := by
  have hsize : (Cursor.start source).size ≤ source.utf8ByteSize := by
    simp [Cursor.size, Cursor.start, String.utf8Len_toList]
  obtain ⟨hfinal, hothers⟩ := Cursor.tokens_spec hsize
  exact ⟨hfinal, fun t ht => (hothers t ht).1, fun t ht => (hothers t ht).2⟩

/-- The stream of a source is as short as the source. -/
theorem ofSource_short (source : String) :
    (TokenStream.ofSource source).pending.length ≤ source.utf8ByteSize ∧
      ((TokenStream.ofSource source).pending.map (·.lexeme.utf8ByteSize)).sum ≤
        24 * source.utf8ByteSize := by
  have hsize : (Cursor.start source).size = source.utf8ByteSize := by
    simp [Cursor.size, Cursor.start, String.utf8Len_toList]
  obtain ⟨hlength, hsum⟩ := Cursor.tokens_short hsize.le
  exact ⟨hlength, hsum.trans_eq (by rw [hsize])⟩

end Lox
