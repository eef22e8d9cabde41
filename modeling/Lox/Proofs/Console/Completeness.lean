import Lox.Console.Dialogue
import Lox.Proofs.Compile.Abreast.Programs
import Lox.Proofs.Compile.Independence
import Lox.Proofs.Syntax.Brackets
import Lox.Proofs.Token.Exactness

/-!
# When an input is complete

A dialogue reads an input twice. It first counts the brackets, character by character, to see
whether the input goes on, and only then it reads tokens. Both readers pass over comments and
strings, each in its own way: the first keeps what surrounds a character, the second takes a string
as one token and a comment as no token.

The induction is on the tokens. What carries it is that the first reader, started where a token
starts and outside strings and comments, is outside of them again where the token ends, with the
brackets of the token counted. Only a string that is not closed takes it to the end of the input.

## Main definitions

* `weight` — how many more brackets a character opens than it closes.
* `Token.Unterminated` — the token of a string that is not closed.
* `Counted` — what the first reader finds is what a token adds to what it finds behind it.

## Main results

* `balance_tokens` — both readers count the same brackets, and find the same string not closed.
* `isComplete_agrees` — an input is complete when its tokens are.
* `dialogue_never_waits` — an input that is compiled is complete.
-/

namespace Lox

open Cursor TokenKind Console

/-! ### Brackets -/

/-- Whether a character is a bracket. -/
def isBracket (c : Char) : Bool := c == '(' || c == '{' || c == ')' || c == '}'

/-- How many more brackets a character opens than it closes. -/
def weight (c : Char) : Int :=
  if c = '{' || c = '(' then 1 else if c = '}' || c = ')' then -1 else 0

/-- The token of a string that is not closed. -/
def Token.Unterminated (t : Token) : Prop := t.kind = .malformed ∧ t.lexeme = unterminatedString

variable {depth : Int} {text rest more inside : List Char} {c : Char} {kind : TokenKind} {t : Token}
  {cursor : Cursor}

/-! ### The reader of characters -/

/-- A character that starts neither a string nor a comment counts for itself. -/
theorem balance_cons (quote : c ≠ '"') (comment : ¬ ['/', '/'] <+: c :: rest) :
    balance .code depth (c :: rest) = balance .code (depth + weight c) rest := by
  rw [balance, if_neg quote]
  · unfold weight
    split
    · rfl
    · split
      · rfl
      · rw [Int.add_zero]
  · rintro more rfl rfl
    exact comment ⟨more, rfl⟩

/-- A text without quotes and slashes counts for its characters. -/
theorem balance_append (plain : ∀ c ∈ text, c ≠ '"' ∧ c ≠ '/') :
    balance .code depth (text ++ more) = balance .code (depth + (text.map weight).sum) more := by
  induction text generalizing depth with
  | nil => simp
  | cons c text ih =>
      obtain ⟨hquote, hslash⟩ := plain c (List.mem_cons_self ..)
      have hcomment : ¬ ['/', '/'] <+: c :: (text ++ more) := fun hprefix =>
        hslash (List.cons_prefix_cons.mp hprefix).1.symm
      rw [List.cons_append, balance_cons hquote hcomment,
        ih fun d hd => plain d (List.mem_cons_of_mem c hd), List.map_cons, List.sum_cons,
        Int.add_assoc]

/-- A string goes up to the next quote. -/
theorem balance_closed (plain : '"' ∉ inside) :
    balance .string depth (inside ++ '"' :: more) = balance .code depth more := by
  induction inside with
  | nil => rw [List.nil_append, balance, if_pos rfl]
  | cons c inside ih =>
      obtain ⟨hother, hplain⟩ := not_or.mp (List.mem_cons.not.mp plain)
      rw [List.cons_append, balance, if_neg (Ne.symm hother), ih hplain]

/-- A string without another quote goes on to the end. -/
theorem balance_unclosed (plain : '"' ∉ inside) :
    balance .string depth inside = (depth, .string) := by
  induction inside with
  | nil => rw [balance]
  | cons c inside ih =>
      obtain ⟨hother, hplain⟩ := not_or.mp (List.mem_cons.not.mp plain)
      rw [balance, if_neg (Ne.symm hother), ih hplain]

/-- No text counts for more than its brackets. -/
theorem natAbs_balance_le (around : Surroundings) (depth : Int) (text : List Char) :
    ((balance around depth text).1 - depth).natAbs ≤ text.countP isBracket := by
  fun_induction balance around depth text with
  | case1 => simp
  | case2 depth c rest ih | case3 depth c rest ih =>
      rw [List.countP_cons]
      simp only [dite_eq_ite] at ih
      exact ih.trans (Nat.le_add_right _ _)
  | case4 depth rest ih =>
      rw [List.countP_cons]
      exact ih.trans (Nat.le_add_right _ _)
  | case5 depth rest _ ih =>
      rw [List.countP_cons]
      exact ih.trans (Nat.le_add_right _ _)
  | case6 depth c rest _ _ hopens ih | case7 depth c rest _ _ _ hcloses ih =>
      rw [List.countP_cons, if_pos (by simp_all [isBracket, or_comm])]
      omega
  | case8 depth c rest _ _ _ _ ih =>
      rw [List.countP_cons]
      exact ih.trans (Nat.le_add_right _ _)

/-- Two ends that a dialogue does not tell apart: as many brackets are open, and both are in a
string or neither is. -/
structure SameEnd (first second : Int × Surroundings) : Prop where
  count : first.1 = second.1
  inString : first.2 = .string ↔ second.2 = .string

/-- What follows a comment is read as if the comment were not there. -/
theorem balance_comment (depth : Int) (text : List Char) :
    SameEnd (balance .comment depth text) (balance .code depth (text.dropWhile (· ≠ '\n'))) := by
  induction text with
  | nil => exact ⟨by simp [balance], by simp [balance]⟩
  | cons c text ih =>
      by_cases hline : c = '\n'
      · subst hline
        rw [balance, if_pos rfl, List.dropWhile_cons_of_neg (by simp),
          balance_cons (by decide) (by simp), show weight '\n' = 0 from rfl, Int.add_zero]
        exact ⟨rfl, Iff.rfl⟩
      · rw [balance, if_neg hline, List.dropWhile_cons_of_pos (by simpa using hline)]
        exact ih

/-- Blanks and comments make no difference. -/
theorem balance_skipBlank (depth : Int) (text : List Char) (line : UInt32) :
    SameEnd (balance .code depth text) (balance .code depth (skipBlank text line).1) := by
  have hblank : ∀ {c : Char} {rest : List Char}, c ≠ '"' → c ≠ '/' → weight c = 0 →
      balance .code depth (c :: rest) = balance .code depth rest := by
    intro c rest hquote hslash hweight
    rw [balance_cons hquote fun hprefix => hslash (List.cons_prefix_cons.mp hprefix).1.symm,
      hweight, Int.add_zero]
  fun_induction skipBlank text line with
  | case1 => exact ⟨rfl, Iff.rfl⟩
  | case2 rest line ih | case3 rest line ih | case4 rest line ih | case5 rest line ih =>
      rw [hblank (by decide) (by decide) rfl]
      exact ih
  | case6 rest line ih =>
      have hcomment := balance_comment depth rest
      rw [balance, balance, if_neg (by decide)]
      exact ⟨hcomment.count.trans ih.count, hcomment.inString.trans ih.inString⟩
  | case7 => exact ⟨rfl, Iff.rfl⟩

/-- No comment stands where a token starts. -/
theorem not_comment_skipBlank (text : List Char) (line : UInt32) :
    ¬ ['/', '/'] <+: (skipBlank text line).1 := by
  fun_induction skipBlank text line with
  | case1 => simp
  | case2 _ _ ih | case3 _ _ ih | case4 _ _ ih | case5 _ _ ih | case6 _ _ ih => exact ih
  | case7 _ _ _ _ _ _ _ hcomment =>
      rintro ⟨more, hmore⟩
      exact hcomment more hmore.symm

/-! ### The reader of tokens -/

/-- Letters and digits are no brackets, and they start neither strings nor comments. -/
theorem weight_of_bounds (low : 48 ≤ c.toNat) (high : c.toNat ≤ 122) :
    weight c = 0 ∧ c ≠ '"' ∧ c ≠ '/' := by
  have hother : ∀ d : Char, d.toNat < 48 ∨ 122 < d.toNat → c ≠ d := by
    rintro d hd rfl
    omega
  refine ⟨?_, hother _ (by decide), hother _ (by decide)⟩
  unfold weight
  rw [if_neg (by simp [hother '{' (by decide), hother '(' (by decide)]),
    if_neg (by simp [hother '}' (by decide), hother ')' (by decide)])]

/-- What goes on a word or a number, and a full stop. -/
theorem weight_of_continues (continues : continuesWord c = true ∨ c = '.') :
    weight c = 0 ∧ c ≠ '"' ∧ c ≠ '/' := by
  rcases continues with hword | rfl
  · rcases Bool.or_eq_true_iff.mp hword with hletter | hdigit
    · have := startsWord_bounds hletter
      exact weight_of_bounds (by omega) (by omega)
    · have := isDigit_iff_toNat.mp hdigit
      exact weight_of_bounds (by omega) (by omega)
  · decide

/-- A text of letters, digits and full stops counts for nothing. -/
theorem weight_of_all (all : ∀ c ∈ text, continuesWord c = true ∨ c = '.') :
    (text.map weight).sum = 0 ∧ ∀ c ∈ text, c ≠ '"' ∧ c ≠ '/' := by
  refine ⟨List.sum_eq_zero fun w hw => ?_, fun c hc => (weight_of_continues (all c hc)).2⟩
  obtain ⟨c, hc, rfl⟩ := List.mem_map.mp hw
  exact (weight_of_continues (all c hc)).1

/-- The characters of a word. -/
theorem TokenKind.IsWord.all (word : IsWord text) :
    ∀ c ∈ text, continuesWord c = true ∨ c = '.' := by
  obtain ⟨c, rest, rfl, hfirst, hrest⟩ := isWord_iff.mp word
  intro d hd
  rcases List.mem_cons.mp hd with rfl | hd
  · exact .inl (by simp [continuesWord, hfirst])
  · exact .inl (hrest d hd)

/-- The characters of a number. -/
theorem TokenKind.IsNumber.all (number : IsNumber text) :
    ∀ c ∈ text, continuesWord c = true ∨ c = '.' := by
  have hdigits : ∀ {digits}, IsDigits digits → ∀ c ∈ digits, continuesWord c = true ∨ c = '.' :=
    fun h c hc => .inl (continuesWord_iff.mpr (.inr (h.2 c hc)))
  intro c hc
  rcases number with hwhole | ⟨whole, fraction, hwhole, hfraction, rfl⟩
  · exact hdigits hwhole c hc
  · rcases List.mem_append.mp hc with hc | hc
    · exact hdigits hwhole c hc
    · rcases List.mem_cons.mp hc with rfl | hc
      · exact .inr rfl
      · exact hdigits hfraction c hc

/-- A token that is neither a string nor a slash has the brackets of its text, and no quote or
slash is in it. -/
theorem TokenKind.Spells.weight_eq (spells : kind.Spells text) (string : kind ≠ .string)
    (slash : kind ≠ .slash) :
    (text.map weight).sum = kind.surplus ∧ ∀ c ∈ text, c ≠ '"' ∧ c ≠ '/' := by
  cases spells with
  | mark entry =>
      have htable : marks.all (fun entry => entry.2 == .slash ||
          (entry.1.map weight).sum == entry.2.surplus &&
            entry.1.all fun c => c != '"' && c != '/') = true := by decide +kernel
      have hentry := List.all_eq_true.mp htable _ entry
      simpa [slash] using hentry
  | reserved entry =>
      have htable : TokenKind.reserved.all (fun entry => entry.2.surplus == 0) = true := by
        decide +kernel
      rw [beq_iff_eq.mp (List.all_eq_true.mp htable _ entry)]
      exact weight_of_all (isWord_of_reserved _ entry).all
  | identifier word => exact weight_of_all word.all
  | number number => exact weight_of_all number.all
  | string => exact absurd rfl string

/-- A slash is the text of its token. -/
theorem TokenKind.Spells.eq_slash (spells : TokenKind.slash.Spells text) : text = ['/'] := by
  cases spells with
  | mark entry => simpa [marks] using entry
  | reserved entry => simp [TokenKind.reserved] at entry

/-- Brackets are marks. -/
theorem weight_of_mark?_none (none : mark? (c :: rest) = none) : weight c = 0 := by
  have hother : ∀ d : Char, d ∈ ['{', '(', '}', ')'] → c ≠ d := by
    rintro d hd rfl
    have htable : ['{', '(', '}', ')'].all (fun d => marks.any fun entry =>
        entry.1.head? == some d) = true := by decide +kernel
    obtain ⟨entry, hentry, hfirst⟩ := List.any_eq_true.mp (List.all_eq_true.mp htable c hd)
    exact mark?_none none entry hentry (beq_iff_eq.mp hfirst)
  unfold weight
  rw [if_neg (by simp [hother]), if_neg (by simp [hother])]

/-- A character that starts no token is not a string that is not closed. -/
theorem not_unterminated (lexeme : t.lexeme = unexpectedCharacter) : ¬ t.Unterminated := fun h =>
  absurd (lexeme.symm.trans h.2) (by decide)

/-- What the first reader finds is what a token adds to what it finds behind it. -/
structure Counted (depth : Int) (text : List Char) (t : Token) (rest : List Char) : Prop where
  count : (balance .code depth text).1 = (balance .code (depth + t.kind.surplus) rest).1
  inString : (balance .code depth text).2 = .string ↔
    t.Unterminated ∨ (balance .code (depth + t.kind.surplus) rest).2 = .string

/-- A token that is read like its characters. -/
theorem counted_of_eq (closed : ¬ t.Unterminated)
    (same : balance .code depth text = balance .code (depth + t.kind.surplus) rest) :
    Counted depth text t rest :=
  ⟨by rw [same], by rw [same, or_iff_right closed]⟩

/-- A token made of the text ahead, which is no string. -/
theorem take_counted {n : Nat} (line : UInt32) (spells : kind.Spells (rest.take n))
    (string : kind ≠ .string) (comment : ¬ ['/', '/'] <+: rest) :
    Counted depth rest (take { rest, line } kind n).1 (take { rest, line } kind n).2.rest := by
  refine counted_of_eq (fun h => spells.proper.1 h.1) ?_
  have hsplit := List.take_append_drop n rest
  change balance .code depth rest = balance .code (depth + kind.surplus) (rest.drop n)
  by_cases hslash : kind = .slash
  · subst hslash
    rw [spells.eq_slash, List.singleton_append] at hsplit
    rw [← hsplit] at comment
    conv => lhs; rw [← hsplit]
    exact balance_cons (by decide) comment
  · obtain ⟨hweight, hplain⟩ := spells.weight_eq string hslash
    conv => lhs; rw [← hsplit]
    rw [balance_append hplain, hweight]

/-- A string literal, or the quote that starts none. -/
theorem stringLiteral_counted (depth : Int) (rest : List Char) (line : UInt32) :
    Counted depth ('"' :: rest) (stringLiteral { rest := '"' :: rest, line }).1
      (stringLiteral { rest := '"' :: rest, line }).2.rest := by
  have hinside := takeWhile_quote rest
  have hplain : '"' ∉ rest.takeWhile (· ≠ '"') := fun hmem => by
    simpa using List.mem_takeWhile_imp hmem
  have hopened : balance .code depth ('"' :: rest) = balance .string depth rest := by
    rw [balance, if_pos rfl]
    rintro more h
    cases h
  unfold stringLiteral
  simp only [List.drop_succ_cons, List.drop_zero]
  generalize rest.takeWhile (· ≠ '"') = inside at hinside hplain
  split
  · rename_i hopen
    obtain rfl : rest = inside := by
      rcases hinside with hall | ⟨more, rfl⟩
      · exact hall.symm
      · simp at hopen
    rw [balance_unclosed hplain] at hopened
    refine ⟨?_, iff_of_true (by rw [hopened]) (.inl ⟨rfl, rfl⟩)⟩
    rw [hopened, balance]
    exact (Int.add_zero depth).symm
  · rename_i hclosed
    obtain ⟨more, rfl⟩ : ∃ more, rest = inside ++ '"' :: more :=
      hinside.resolve_left fun hall => hclosed (by rw [hall])
    refine counted_of_eq (fun h => by cases h.1) ?_
    have hdrop : ('"' :: (inside ++ '"' :: more)).drop (inside.length + 2) = more := by
      simp
    simp only [take, hdrop]
    rw [hopened, balance_closed hplain]
    exact congrArg (balance .code · more) (Int.add_zero depth).symm

/-- The token that starts right here. -/
theorem tokenHere_counted (depth : Int) (line : UInt32) (comment : ¬ ['/', '/'] <+: rest) :
    Counted depth rest (tokenHere { rest, line }).1 (tokenHere { rest, line }).2.rest := by
  unfold tokenHere
  cases rest with
  | nil => exact counted_of_eq (fun h => by cases h.1) (by simp [balance, surplus])
  | cons c rest =>
      dsimp only
      split
      · rename_i hletter
        have htake : (c :: rest).take ((c :: rest).takeWhile continuesWord).length =
            (c :: rest).takeWhile continuesWord :=
          (List.prefix_iff_eq_take.mp (List.takeWhile_prefix _)).symm
        refine take_counted line ?_ (ofWord_spec _).2 comment
        rw [htake]
        exact spells_ofWord (isWord_takeWhile hletter)
      · split
        · rename_i hdigit
          exact take_counted line (.number (isNumber_take hdigit)) (by decide) comment
        · split
          · rename_i hquote
            subst hquote
            exact stringLiteral_counted depth rest line
          · rename_i hquote
            split
            · rename_i kind n hfound
              exact take_counted line (.mark (mark?_longest hfound).1)
                (mark?_spec hfound).2.2 comment
            · rename_i hnone
              refine counted_of_eq (not_unterminated rfl) ?_
              rw [balance_cons hquote comment, weight_of_mark?_none hnone]
              rfl

/-- The next token. -/
theorem token_counted (depth : Int) (cursor : Cursor) :
    Counted depth cursor.rest cursor.token.1 cursor.token.2.rest := by
  cases howed : cursor.owed with
  | zero =>
      have hskip := balance_skipBlank depth cursor.rest cursor.line
      rw [token_of_owed_zero howed]
      obtain ⟨hdepth, hstring⟩ := tokenHere_counted depth (skipBlank cursor.rest cursor.line).2
        (not_comment_skipBlank cursor.rest cursor.line)
      exact ⟨hskip.count.trans hdepth, hskip.inString.trans hstring⟩
  | succ owed =>
      rw [token_of_owed_succ howed]
      exact counted_of_eq (not_unterminated rfl) (by simp [surplus])

/-- The input ends where nothing is left. -/
theorem rest_of_ending (ending : cursor.token.1.kind = .endOfInput) :
    cursor.token.2.rest = [] := by
  cases howed : cursor.owed with
  | succ owed =>
      rw [token_of_owed_succ howed] at ending
      cases ending
  | zero =>
      rw [token_of_owed_zero howed] at ending ⊢
      have hnil : (skipBlank cursor.rest cursor.line).1 = [] := by
        by_contra hreal
        exact tokenHere_real hreal ending
      rw [hnil]
      rfl

/-! ### Both readers -/

/-- Where the tokens end, nothing is left to count. -/
theorem balance_of_ending (ending : cursor.token.1.kind = .endOfInput) (depth : Int) :
    (balance .code depth cursor.rest).1 = depth ∧
      (balance .code depth cursor.rest).2 ≠ .string := by
  obtain ⟨hdepth, hstring⟩ := token_counted depth cursor
  rw [rest_of_ending ending, ending, balance] at hdepth hstring
  refine ⟨hdepth.trans (Int.add_zero depth), fun h => ?_⟩
  rcases hstring.mp h with hopen | hopen
  · exact absurd (hopen.1.symm.trans ending) (by decide)
  · cases hopen

/-- The reader of characters counts the brackets of the tokens, and it ends in a string when one of
them is a string that is not closed. -/
theorem balance_tokens {bytes : Nat} (enough : cursor.size ≤ bytes) (depth : Int) :
    (balance .code depth cursor.rest).1 =
        depth + (((tokens bytes cursor).1.map (·.kind)).map surplus).sum ∧
      ((balance .code depth cursor.rest).2 = .string ↔
        ∃ t ∈ (tokens bytes cursor).1, t.Unterminated) := by
  induction bytes generalizing cursor depth with
  | zero =>
      obtain ⟨hdepth, hstring⟩ :=
        balance_of_ending ((token_promises cursor).drained (by omega)) depth
      exact ⟨by simpa [tokens] using hdepth, by simpa [tokens] using hstring⟩
  | succ bytes ih =>
      simp only [tokens]
      split
      · rename_i hkind
        obtain ⟨hdepth, hstring⟩ := balance_of_ending hkind depth
        exact ⟨by simpa using hdepth, by simpa using hstring⟩
      · rename_i hkind
        have hless := (token_promises cursor).taken hkind
        obtain ⟨hdepth, hstring⟩ := token_counted depth cursor
        obtain ⟨hdepth', hstring'⟩ :=
          ih (show cursor.token.2.size ≤ bytes by omega) (depth + cursor.token.1.kind.surplus)
        refine ⟨?_, ?_⟩
        · rw [hdepth, hdepth', List.map_cons, List.map_cons, List.sum_cons, Int.add_assoc]
        · rw [hstring, hstring']
          simp only [List.mem_cons, exists_eq_or_imp]

/-- An input is complete when no string of it is left open and its tokens open no more brackets than
they close. -/
theorem isComplete_iff (input : String) : isComplete input = true ↔
    (∀ t ∈ (TokenStream.ofSource input).pending, ¬ t.Unterminated) ∧
    ((TokenStream.ofSource input).pending.map (·.kind)).countP opens ≤
      ((TokenStream.ofSource input).pending.map (·.kind)).countP closes := by
  have hsize : (start input).size ≤ input.utf8ByteSize := by
    simp [size, start, String.utf8Len_toList]
  obtain ⟨hdepth, hstring⟩ := balance_tokens hsize 0
  rw [sum_surplus] at hdepth
  have hcomplete : isComplete input = true ↔
      (balance .code 0 input.toList).1 ≤ 0 ∧ (balance .code 0 input.toList).2 ≠ .string := by
    simp [isComplete]
  rw [hcomplete, and_comm]
  refine and_congr ?_ ?_
  · rw [ne_eq, show input.toList = (start input).rest from rfl, hstring, not_exists]
    simp only [not_and]
    rfl
  · rw [show input.toList = (start input).rest from rfl, hdepth]
    simp only [TokenStream.ofSource]
    omega

/-- Both readers of an input agree: it is complete when no string of it is left open and its tokens
open no more brackets than they close. While it is read, the count is never further from zero than
there are brackets so far, so a counter of 32 bits holds it if there are fewer than 2 ^ 31. -/
theorem isComplete_agrees (input : String) :
    (isComplete input = true ↔
      (∀ t ∈ (TokenStream.ofSource input).pending,
        ¬ (t.kind = .malformed ∧ t.lexeme = unterminatedString)) ∧
      ((TokenStream.ofSource input).pending.map (·.kind)).countP opens ≤
        ((TokenStream.ofSource input).pending.map (·.kind)).countP closes) ∧
    ∀ before later, input.toList = before ++ later →
      (balance .code 0 before).1.natAbs ≤ before.countP isBracket :=
  ⟨isComplete_iff input, fun before _ _ => by simpa using natAbs_balance_le .code 0 before⟩

/-! ### Programs -/

/-- An accepted source is complete. -/
theorem isComplete_of_accepted {source : String} {held : List Handle} {heap heap' : Heap}
    {script : Handle} (valid : heap.Valid) (live : ∀ h ∈ held, heap.Live h)
    (run : compile (.ofSource source) held heap = .ok (.ok script) heap') :
    isComplete source = true := by
  obtain ⟨-, -, program, -, -, hparsed, -⟩ :=
    compile_sound (terminated_ofSource source) valid live run
  have hderives := Grammar.declarations_derives hparsed
  refine (isComplete_iff source).mpr ⟨fun t ht hopen => ?_, hderives.balanced.le⟩
  exact hderives.proper (by decide) (hopen.1 ▸ List.mem_map_of_mem ht)

/-- What a dialogue waits for is not complete. -/
theorem not_complete_of_wait {d : Dialogue} {line : String} (waits : (d.read line).2 = .wait) :
    isComplete (d.read line).1.buffer = false := by
  unfold Dialogue.read at waits ⊢
  dsimp only at waits ⊢
  split at waits
  · unfold Reply.ofCommand at waits
    split at waits <;> cases waits
  · rename_i hcommand
    rw [if_neg hcommand]
    split at waits
    · cases waits
    · rename_i hopen
      rw [if_neg hopen]
      exact Bool.eq_false_iff.mpr hopen

/-- A dialogue never waits for the rest of a program. What is compiled is complete, and what is held
back is not compiled. -/
theorem dialogue_never_waits {source : String} {held : List Handle} {heap : Heap}
    (valid : heap.Valid) (live : ∀ h ∈ held, heap.Live h) :
    (∀ script heap', compile (.ofSource source) held heap = .ok (.ok script) heap' →
      isComplete source = true) ∧
    ∀ (d : Dialogue) line, (d.read line).2 = .wait → (d.read line).1.buffer = source →
      ∀ script heap', compile (.ofSource source) held heap ≠ .ok (.ok script) heap' := by
  refine ⟨fun script heap' run => isComplete_of_accepted valid live run, ?_⟩
  intro d line hwait hbuffer script heap' run
  have hopen := not_complete_of_wait hwait
  rw [hbuffer, isComplete_of_accepted valid live run] at hopen
  cases hopen

/-- A program with brackets in a string and in a comment. -/
def brackets : String := "fun f() \x7b print \"(\"; \x7d // \x7b"

/-- It is compiled, so it is complete. -/
theorem dialogue_never_waits_brackets :
    ∃ heap', compile (.ofSource brackets) [] (.empty {}) = .ok (.ok ⟨3⟩) heap' ∧
      isComplete brackets = true := by
  have hscript : script? (compile (.ofSource brackets) [] (.empty {})) = some ⟨3⟩ := by
    decide +kernel
  obtain ⟨heap', hrun⟩ := eq_ok_of_script? hscript
  exact ⟨heap', hrun, (dialogue_never_waits (Heap.valid_empty {}) fun h hh =>
    by cases hh).1 _ _ hrun⟩

end Lox
