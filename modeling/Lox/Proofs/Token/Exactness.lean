import Lox.Proofs.Text.Bytes
import Lox.Proofs.Token.Spelling

/-!
# Tokens and the bytes of the source

The lexer as a reader of bytes. Each call gives a token and a place, so the bytes of a source fall
into gaps and spans, one after the other. The gaps are blanks and comments. The span of a token is
its lexeme, and it is the longest that could stand there, or the token is malformed.

A cursor counts characters, with a debt of bytes inside of one. What carries the argument is that
the debt is smaller than the character just read: so the bytes owed are those in the middle of a
character outside ASCII, of which none starts a token and none is a newline.

## Main definitions

* `Skips` — bytes between tokens.
* `Reads` — how a token is read off the bytes ahead.
* `Exact` — what is promised of a token, with the gap in front of it.
* `Cursor.after` — the place after so many tokens.

## Main results

* `scan_exact` — the tokens of a source, with their spans.
* `tokenAt_line` — the line of a token counts the newlines up to its end, with 32 bits.
* `scan_line` — it is exact where these suffice.
-/

namespace Lox

open Cursor TokenKind

/-! ### The bytes between tokens, and those of a token -/

/-- The bytes that stand between tokens. -/
def blanks : List UInt8 := [' ', '\t', '\r', '\n'].map Char.toUInt8

/-- The byte of a newline. -/
def newline : UInt8 := '\n'.toUInt8

/-- The byte of a slash. -/
def slash : UInt8 := '/'.toUInt8

/-- The byte of a quote. -/
def quote : UInt8 := '"'.toUInt8

/-- Blanks and comments are left out, up to something else. A comment ends in front of a newline
or with the input. -/
inductive Skips : List UInt8 → List UInt8 → Prop
  | stop {ahead : List UInt8} (blank : ∀ b ∈ ahead.head?, b ∉ blanks)
      (comment : ¬ [slash, slash] <+: ahead) : Skips ahead ahead
  | blank {b : UInt8} {ahead after : List UInt8} (blank : b ∈ blanks) (others : Skips ahead after) :
      Skips (b :: ahead) after
  | comment {text ahead after : List UInt8} (line : newline ∉ text)
      (ends : ∀ b ∈ ahead.head?, b = newline) (others : Skips ahead after) :
      Skips (slash :: slash :: (text ++ ahead)) after

/-- No token starts with a byte. -/
def StartsNone (b : UInt8) : Prop :=
  ∀ kind text bytes, TokenKind.Spells kind text → utf8 text ≠ b :: bytes

/-- How a token is read off the bytes ahead, and how many of them it takes. -/
inductive Reads (ahead : List UInt8) (t : Token) : Nat → Prop
  /-- Nothing is ahead. -/
  | ending (none : ahead = []) (kind : t.kind = .endOfInput) (lexeme : t.lexeme = "") :
      Reads ahead t 0
  /-- The bytes ahead start with the lexeme, and with no longer one. -/
  | spelled (spells : t.kind.Spells t.lexeme.toList) (here : bytesOf t.lexeme <+: ahead)
      (longest : ∀ kind text, TokenKind.Spells kind text → utf8 text <+: ahead →
        (utf8 text).length ≤ (bytesOf t.lexeme).length) :
      Reads ahead t (bytesOf t.lexeme).length
  /-- The first byte starts no token. -/
  | unexpected {b : UInt8} {others : List UInt8} (first : ahead = b :: others)
      (foreign : StartsNone b) (kind : t.kind = .malformed)
      (lexeme : t.lexeme = unexpectedCharacter) : Reads ahead t 1
  /-- A quote is ahead, and no other. -/
  | unterminated {inside : List UInt8} (first : ahead = quote :: inside) (unclosed : quote ∉ inside)
      (kind : t.kind = .malformed) (lexeme : t.lexeme = unterminatedString) :
      Reads ahead t ahead.length

/-- What is promised of a token: where it starts and stops, where the one before it stopped, and
how its bytes are read. -/
structure Exact (source : String) (last start stop : Nat) (t : Token) : Prop where
  ordered : last ≤ start ∧ start ≤ stop ∧ stop ≤ source.utf8ByteSize
  gap : Skips ((bytesOf source).drop last) ((bytesOf source).drop start)
  reads : Reads ((bytesOf source).drop start) t (stop - start)
  span : t.kind ≠ .malformed → ∃ before after : String, source = before ++ t.lexeme ++ after ∧
    before.utf8ByteSize = start ∧ (before ++ t.lexeme).utf8ByteSize = stop
  malformed : t.kind = .malformed ↔
    (∃ b others, (bytesOf source).drop start = b :: others ∧ StartsNone b) ∨
      ∃ inside, (bytesOf source).drop start = quote :: inside ∧ quote ∉ inside
  taken : t.kind ≠ .endOfInput → start < stop

/-! ### What is read -/

variable {ahead : List UInt8} {t : Token} {n : Nat} {source : String} {past text rest : List Char}
  {cursor : Cursor} {kind : TokenKind} {c : Char} {line : UInt32}

/-- What has a text of its own is neither malformed nor the end of input. -/
theorem TokenKind.Spells.proper (spells : kind.Spells text) :
    kind ≠ .malformed ∧ kind ≠ .endOfInput := by
  cases spells with
  | mark entry =>
      have htable : ∀ entry ∈ marks, entry.2 ≠ .malformed ∧ entry.2 ≠ .endOfInput := by decide
      exact htable _ entry
  | reserved entry =>
      have htable : ∀ entry ∈ TokenKind.reserved,
          entry.2 ≠ .malformed ∧ entry.2 ≠ .endOfInput := by decide +kernel
      exact htable _ entry
  | identifier | number | string => decide

/-- A token that has a text of its own has at least a byte. -/
theorem TokenKind.Spells.exists_byte (spells : kind.Spells text) :
    ∃ b bytes, utf8 text = b :: bytes := by
  obtain ⟨c, more, rfl, -⟩ := spells.first
  rw [utf8_cons, utf8EncodeChar_of_lt spells.ascii]
  exact ⟨_, _, rfl⟩

/-- Nothing but strings starts with a quote, so none starts where no other quote follows. -/
theorem not_spells_of_unclosed {inside : List UInt8} (unclosed : quote ∉ inside)
    (spells : kind.Spells text) : ¬ utf8 text <+: quote :: inside := by
  rintro here
  obtain ⟨b, bytes, hbytes⟩ := spells.exists_byte
  obtain ⟨rfl, hinside⟩ := List.cons_prefix_cons.mp (hbytes ▸ here)
  obtain ⟨more, rfl, rfl⟩ := utf8_eq_toUInt8_cons (by decide) hbytes
  exact unclosed (hinside.subset ((toUInt8_mem_utf8 (by decide)).mpr spells.mem_quote))

/-- Malformed tokens come of a byte that starts no token, and of a string that is not closed. -/
theorem Reads.malformed_iff (reads : Reads ahead t n) : t.kind = .malformed ↔
    (∃ b others, ahead = b :: others ∧ StartsNone b) ∨
      ∃ inside, ahead = quote :: inside ∧ quote ∉ inside := by
  cases reads with
  | ending none kind => simp [none, kind]
  | spelled spells here =>
      refine ⟨fun hkind => absurd hkind spells.proper.1, ?_⟩
      rintro (⟨b, others, rfl, hforeign⟩ | ⟨inside, rfl, hunclosed⟩)
      · obtain ⟨b', bytes, hbytes⟩ := spells.exists_byte
        rw [bytesOf_eq, hbytes] at here
        obtain ⟨rfl, -⟩ := List.cons_prefix_cons.mp here
        exact absurd hbytes (hforeign _ _ _ spells)
      · exact absurd (bytesOf_eq _ ▸ here) (not_spells_of_unclosed hunclosed spells)
  | unexpected first foreign kind => exact iff_of_true kind (.inl ⟨_, _, first, foreign⟩)
  | unterminated first unclosed kind => exact iff_of_true kind (.inr ⟨_, first, unclosed⟩)

/-- Every token but the end of input takes a byte. -/
theorem Reads.taken (reads : Reads ahead t n) (real : t.kind ≠ .endOfInput) : 0 < n := by
  cases reads with
  | ending none kind => exact absurd kind real
  | spelled spells =>
      obtain ⟨b, bytes, hbytes⟩ := spells.exists_byte
      rw [bytesOf_eq, hbytes]
      exact Nat.succ_pos _
  | unexpected => exact Nat.one_pos
  | unterminated first =>
      rw [first]
      exact Nat.succ_pos _

/-- No token takes more than what is ahead. -/
theorem Reads.le (reads : Reads ahead t n) : n ≤ ahead.length := by
  cases reads with
  | ending => exact Nat.zero_le _
  | spelled _ here => exact here.length_le
  | unexpected first =>
      rw [first]
      exact Nat.succ_le_succ (Nat.zero_le _)
  | unterminated => exact Nat.le_refl _

/-- A byte that belongs to no character of ASCII starts no token. -/
theorem startsNone_of_le {b : UInt8} (large : 128 ≤ b.toNat) : StartsNone b := by
  intro kind text bytes hspells hbytes
  obtain ⟨c, more, rfl, -⟩ := hspells.first
  rw [utf8_cons, utf8EncodeChar_of_lt hspells.ascii] at hbytes
  obtain ⟨rfl, -⟩ := List.cons_eq_cons.mp hbytes
  have := hspells.ascii
  rw [toNat_toUInt8 this] at large
  omega

namespace Cursor

/-! ### Between tokens -/

/-- The first byte of a text is that of a character of ASCII only if the text starts with it. -/
theorem exists_of_head?_utf8 (ascii : c.toNat < 128) (first : c.toUInt8 ∈ (utf8 text).head?) :
    ∃ more, text = c :: more := by
  obtain ⟨bytes, hbytes⟩ := List.head?_eq_some_iff.mp first
  obtain ⟨more, hmore, -⟩ := utf8_eq_toUInt8_cons ascii hbytes
  exact ⟨more, hmore⟩

/-- A text without a newline stays on its line. -/
theorem lineAfter_of_not_mem {line : UInt32} (plain : '\n' ∉ text) :
    lineAfter line text = line := by
  simp [lineAfter, newlines, List.count_eq_zero.mpr plain]

/-- Only newlines count. -/
theorem lineAfter_cons_of_ne {line : UInt32} (other : c ≠ '\n') :
    lineAfter line (c :: text) = lineAfter line text := by
  simp [lineAfter, newlines, other]

/-- The lines of a text are those of its parts. -/
theorem lineAfter_append (line : UInt32) (text more : List Char) :
    lineAfter line (text ++ more) = lineAfter (lineAfter line text) more := by
  simp [lineAfter, newlines, UInt32.add_assoc]

/-- What is skipped: blanks and comments, with their newlines counted. -/
theorem skipBlank_spec (text : List Char) (line : UInt32) :
    ∃ gap, text = gap ++ (skipBlank text line).1 ∧
      (skipBlank text line).2 = lineAfter line gap ∧
      Skips (utf8 text) (utf8 (skipBlank text line).1) := by
  have hblank : ∀ {c : Char} {rest : List Char} {line line' : UInt32}, c.toNat < 128 →
      c.toUInt8 ∈ blanks → line' = lineAfter line [c] →
      (∃ gap, rest = gap ++ (skipBlank rest line').1 ∧
        (skipBlank rest line').2 = lineAfter line' gap ∧
        Skips (utf8 rest) (utf8 (skipBlank rest line').1)) →
      ∃ gap, c :: rest = gap ++ (skipBlank rest line').1 ∧
        (skipBlank rest line').2 = lineAfter line gap ∧
        Skips (utf8 (c :: rest)) (utf8 (skipBlank rest line').1) := by
    rintro c rest line line' hascii hblank rfl ⟨gap, hgap, hline, hskips⟩
    refine ⟨c :: gap, by rw [List.cons_append, ← hgap], ?_, ?_⟩
    · rw [hline, ← lineAfter_append, List.singleton_append]
    · rw [utf8_cons, utf8EncodeChar_of_lt hascii]
      exact .blank hblank hskips
  fun_induction skipBlank text line with
  | case1 line => exact ⟨[], rfl, (lineAfter_of_not_mem (by simp)).symm, .stop (by simp) (by simp)⟩
  | case2 rest line ih => exact hblank (by decide) (by decide) rfl ih
  | case3 rest line ih | case4 rest line ih | case5 rest line ih =>
      exact hblank (by decide) (by decide) (lineAfter_of_not_mem (by decide)).symm ih
  | case6 rest line ih =>
      obtain ⟨gap, hgap, hline, hskips⟩ := ih
      have hplain : '\n' ∉ rest.takeWhile (· ≠ '\n') := fun hmem => by
        simpa using List.mem_takeWhile_imp hmem
      refine ⟨'/' :: '/' :: (rest.takeWhile (· ≠ '\n') ++ gap), ?_, ?_, ?_⟩
      · rw [List.cons_append, List.cons_append, List.append_assoc, ← hgap,
          List.takeWhile_append_dropWhile]
      · rw [hline, lineAfter_cons_of_ne (by decide), lineAfter_cons_of_ne (by decide),
          lineAfter_append, lineAfter_of_not_mem hplain]
      · have hsplit : utf8 rest = utf8 (rest.takeWhile (· ≠ '\n')) ++
            utf8 (rest.dropWhile (· ≠ '\n')) := by
          rw [← utf8_append, List.takeWhile_append_dropWhile]
        have hbytes : newline ∉ utf8 (rest.takeWhile (· ≠ '\n')) := fun hmem =>
          hplain ((toUInt8_mem_utf8 (by decide)).mp hmem)
        have hends : ∀ b ∈ (utf8 (rest.dropWhile (· ≠ '\n'))).head?, b = newline := by
          intro b hb
          have hfirst := List.head?_dropWhile_not (· ≠ '\n') rest
          cases hrest : rest.dropWhile (· ≠ '\n') with
          | nil =>
              rw [hrest] at hb
              cases hb
          | cons c more =>
              rw [hrest] at hb hfirst
              obtain rfl : c = '\n' := by simpa using hfirst
              rw [utf8_cons, utf8EncodeChar_of_lt (by decide)] at hb
              simpa [newline, eq_comm] using hb
        rw [utf8_cons, utf8_cons, utf8EncodeChar_of_lt (by decide), hsplit, List.singleton_append,
          List.singleton_append]
        exact .comment hbytes hends hskips
  | case7 text line hnil hnewline hspace hreturn htab hcomment =>
      refine ⟨[], rfl, (lineAfter_of_not_mem (by simp)).symm, .stop ?_ ?_⟩
      · intro b hb hmem
        simp only [blanks, List.map_cons, List.map_nil, List.mem_cons, List.not_mem_nil,
          or_false] at hmem
        rcases hmem with rfl | rfl | rfl | rfl
        all_goals
          obtain ⟨more, hmore⟩ := exists_of_head?_utf8 (by decide) hb
          solve_by_elim
      · rintro ⟨bytes, hbytes⟩
        obtain ⟨more, rfl, hmore⟩ := utf8_eq_toUInt8_cons (by decide) hbytes.symm
        obtain ⟨more, rfl, -⟩ := utf8_eq_toUInt8_cons (by decide) hmore.symm
        exact hcomment _ rfl

/-! ### A token -/

/-- A token takes a text off the front, but for the bytes that are owed of its last character. -/
structure Takes (rest : List Char) (line : UInt32) (text : List Char) (t : Token) (after : Cursor) :
    Prop where
  taken : rest = text ++ after.rest
  counted : after.line = lineAfter line text
  ends : t.line = after.line.toNat
  owed : after.owed = 0 ∨ ∃ c, text = [c] ∧ after.owed < c.utf8Size
  reads : Reads (utf8 rest) t (String.utf8Len text - after.owed)
  lexeme : t.kind ≠ .malformed → t.lexeme.toList = text ∧ after.owed = 0

/-- A text that is taken as a token. -/
theorem take_takes (line : UInt32) (spells : kind.Spells (rest.take n))
    (longest : ∀ kind text, TokenKind.Spells kind text → text <+: rest →
      text.length ≤ (rest.take n).length) :
    Takes rest line (rest.take n) (take { rest, line } kind n).1
      (take { rest, line } kind n).2 := by
  have hbytes : bytesOf (take { rest, line } kind n).1.lexeme = utf8 (rest.take n) := by
    simp only [take]
    rw [bytesOf_eq, String.toList_ofList]
  refine ⟨(List.take_append_drop n rest).symm, rfl, rfl, .inl rfl, ?_, fun _ =>
    ⟨by simp [take], rfl⟩⟩
  rw [show (take { rest, line } kind n).2.owed = 0 from rfl, Nat.sub_zero, ← length_utf8, ← hbytes]
  refine .spelled (by simpa [take] using spells) ?_ fun kind text hspells hhere => ?_
  · refine ⟨utf8 (rest.drop n), ?_⟩
    rw [hbytes, ← utf8_append, List.take_append_drop]
  · obtain ⟨others, hothers⟩ := List.prefix_of_prefix_length_le (isPrefix_of_utf8 hhere)
      (List.take_prefix n rest) (longest kind text hspells (isPrefix_of_utf8 hhere))
    rw [hbytes, ← hothers, utf8_append, List.length_append]
    exact Nat.le_add_right _ _

/-- A string literal, or the quote that starts none. -/
theorem stringLiteral_takes (rest : List Char) (line : UInt32) :
    ∃ text, Takes ('"' :: rest) line text (stringLiteral { rest := '"' :: rest, line }).1
      (stringLiteral { rest := '"' :: rest, line }).2 := by
  have hinside := takeWhile_quote rest
  have hplain : '"' ∉ rest.takeWhile (· ≠ '"') := fun hmem => by
    simpa using List.mem_takeWhile_imp hmem
  unfold stringLiteral
  simp only [List.drop_succ_cons, List.drop_zero]
  generalize rest.takeWhile (· ≠ '"') = inside at hinside hplain
  split
  · rename_i hopen
    obtain rfl : rest = inside := by
      rcases hinside with hall | ⟨more, rfl⟩
      · exact hall.symm
      · simp at hopen
    have hunclosed : quote ∉ utf8 rest := fun hmem =>
      hplain ((toUInt8_mem_utf8 (by decide)).mp hmem)
    refine ⟨'"' :: rest, by simp, ?_, rfl, .inl rfl, ?_, fun hkind => absurd rfl hkind⟩
    · exact (lineAfter_cons_of_ne (by decide)).symm
    · rw [Nat.sub_zero, ← length_utf8]
      refine .unterminated ?_ hunclosed rfl rfl
      rw [utf8_cons, utf8EncodeChar_of_lt (by decide)]
      rfl
  · rename_i hclosed
    obtain ⟨more, rfl⟩ : ∃ more, rest = inside ++ '"' :: more :=
      hinside.resolve_left fun hall => hclosed (by rw [hall])
    have htake : ('"' :: (inside ++ '"' :: more)).take (inside.length + 2) =
        '"' :: (inside ++ ['"']) := by
      rw [List.take_succ_cons, List.take_length_add_append]
      rfl
    refine ⟨_, take_takes line ?_ fun kind text hspells hhere => ?_⟩
    · rw [htake]
      exact .string ⟨inside, hplain, rfl⟩
    · rw [htake]
      simpa using string_longest hspells hhere

/-- No token starts with a character that is neither a letter, a digit or a quote nor a mark. -/
theorem startsNone_first {b : UInt8} {others : List UInt8} (letter : startsWord c = false)
    (digit : c.isDigit = false) (notQuote : c ≠ '"') (none : mark? (c :: rest) = none)
    (first : String.utf8EncodeChar c = b :: others) : StartsNone b := by
  rcases utf8EncodeChar_cases c with ⟨hascii, -, hbytes⟩ | ⟨-, hlarge⟩
  · intro kind text bytes hspells htext
    obtain ⟨rfl, -⟩ := List.cons_eq_cons.mp (hbytes.symm.trans first)
    obtain ⟨more, rfl, -⟩ := utf8_eq_toUInt8_cons hascii htext
    exact mark?_none none _ (hspells.isMark letter digit notQuote) rfl
  · exact startsNone_of_le (hlarge b (by simp [first]))

/-- The token that starts right here. -/
theorem tokenHere_takes (line : UInt32) (real : ∀ more, rest ≠ '\n' :: more) :
    ∃ text, Takes rest line text (tokenHere { rest, line }).1 (tokenHere { rest, line }).2 := by
  unfold tokenHere
  cases rest with
  | nil =>
      exact ⟨[], rfl, (lineAfter_of_not_mem (by simp)).symm, rfl, .inl rfl, .ending rfl rfl rfl,
        fun _ => ⟨rfl, rfl⟩⟩
  | cons c rest =>
      dsimp only
      split
      · rename_i hletter
        have htake : (c :: rest).take ((c :: rest).takeWhile continuesWord).length =
            (c :: rest).takeWhile continuesWord :=
          (List.prefix_iff_eq_take.mp (List.takeWhile_prefix _)).symm
        refine ⟨_, take_takes line ?_ fun kind text hspells hhere => ?_⟩
        · rw [htake]
          exact spells_ofWord (isWord_takeWhile hletter)
        · rw [htake]
          exact word_longest hletter hspells hhere
      · split
        · rename_i hdigit
          refine ⟨_, take_takes line (.number (isNumber_take hdigit))
            fun kind text hspells hhere => ?_⟩
          rw [List.length_take, Nat.min_eq_left (numberLength_le _)]
          exact number_longest hdigit hspells hhere
        · split
          · rename_i hquote
            subst hquote
            exact stringLiteral_takes rest line
          · rename_i hletter hdigit hquote
            rw [Bool.not_eq_true] at hletter hdigit
            have hmark : ∀ {kind text}, TokenKind.Spells kind text → text <+: c :: rest →
                (text, kind) ∈ marks := fun hspells hhere => by
              obtain ⟨d, others, rfl, -⟩ := hspells.first
              obtain rfl := (List.cons_prefix_cons.mp hhere).1
              exact hspells.isMark hletter hdigit hquote
            split
            · rename_i kind n hfound
              obtain ⟨hentry, hlongest⟩ := mark?_longest hfound
              refine ⟨_, take_takes line (.mark hentry) fun kind text hspells hhere => ?_⟩
              rw [List.length_take, Nat.min_eq_left (mark?_le hfound)]
              exact hlongest _ (hmark hspells hhere) hhere
            · rename_i hnone
              obtain ⟨b, others, hbytes⟩ := List.exists_cons_of_ne_nil
                (String.utf8EncodeChar_ne_nil (c := c))
              refine ⟨[c], rfl, ?_, rfl, .inr ⟨c, rfl, ?_⟩, ?_, fun hkind => absurd rfl hkind⟩
              · have hline : c ≠ '\n' := fun h => real rest (by rw [h])
                exact (lineAfter_of_not_mem (by simpa [eq_comm] using hline)).symm
              · exact Nat.sub_lt (Char.utf8Size_pos c) Nat.one_pos
              · have hone : String.utf8Len [c] - (c.utf8Size - 1) = 1 := by
                  have := c.utf8Size_pos
                  rw [String.utf8Len_cons, String.utf8Len_nil]
                  omega
                rw [hone]
                refine .unexpected (by rw [utf8_cons, hbytes, List.cons_append]) ?_ rfl rfl
                exact startsNone_first hletter hdigit hquote hnone hbytes

/-! ### Places -/

/-- How many bytes of a source lie before a cursor. -/
def place (source : String) (cursor : Cursor) : Nat := source.utf8ByteSize - cursor.size

/-- A cursor stands behind a text, but for the bytes that are owed of its last character. -/
structure Stands (source : String) (past : List Char) (cursor : Cursor) : Prop where
  split : source.toList = past ++ cursor.rest
  line : cursor.line = lineAfter 1 past
  owed : cursor.owed = 0 ∨ ∃ before c, past = before ++ [c] ∧ cursor.owed < c.utf8Size

/-- The start of a source. -/
theorem stands_start (source : String) : Stands source [] (start source) :=
  ⟨rfl, rfl, .inl rfl⟩

/-- The bytes before a cursor, those that are owed, and those of the text that is left. No byte
that is owed is of ASCII. -/
theorem Stands.bytes (stands : Stands source past cursor) :
    ∃ done owing, bytesOf source = done ++ (owing ++ utf8 cursor.rest) ∧
      done.length = place source cursor ∧ owing.length = cursor.owed ∧
      (∀ b ∈ owing, 128 ≤ b.toNat) ∧ done.count newline = newlines past := by
  have hbytes : bytesOf source = utf8 past ++ utf8 cursor.rest := by
    rw [bytesOf_eq, stands.split, utf8_append]
  have hsize : source.utf8ByteSize = String.utf8Len past + String.utf8Len cursor.rest := by
    rw [← String.utf8Len_toList, stands.split, String.utf8Len_append]
  have hcount : ∀ text : List Char, (utf8 text).count newline = newlines text :=
    count_utf8 (by decide)
  by_cases hnone : cursor.owed = 0
  · refine ⟨utf8 past, [], by simpa using hbytes, ?_, hnone.symm, by simp, hcount past⟩
    simp only [place, size, length_utf8]
    omega
  · obtain ⟨before, c, rfl, hless⟩ := stands.owed.resolve_left hnone
    have hsplit := List.take_append_drop (c.utf8Size - cursor.owed) (String.utf8EncodeChar c)
    have hlength := String.length_utf8EncodeChar c
    -- a character of which bytes can be owed has more than one
    obtain ⟨hascii, hlarge⟩ : 128 ≤ c.toNat ∧ ∀ b ∈ String.utf8EncodeChar c, 128 ≤ b.toNat := by
      rcases utf8EncodeChar_cases c with ⟨-, hone, -⟩ | hlarge
      · omega
      · exact hlarge
    refine ⟨utf8 before ++ (String.utf8EncodeChar c).take (c.utf8Size - cursor.owed),
      (String.utf8EncodeChar c).drop (c.utf8Size - cursor.owed), ?_, ?_, ?_,
      fun b hb => hlarge b (List.mem_of_mem_drop hb), ?_⟩
    · rw [List.append_assoc, ← List.append_assoc (List.take _ _), hsplit, hbytes, utf8_append,
        utf8_cons, utf8_nil, List.append_nil, List.append_assoc]
    · rw [String.utf8Len_append, String.utf8Len_cons, String.utf8Len_nil] at hsize
      simp only [place, size, List.length_append, List.length_take, length_utf8]
      omega
    · rw [List.length_drop]
      omega
    · have hnot : newline ∉ (String.utf8EncodeChar c).take (c.utf8Size - cursor.owed) :=
        fun hmem => absurd (hlarge _ (List.mem_of_mem_take hmem)) (by decide)
      have hother : c ≠ '\n' := by
        rintro rfl
        exact absurd hascii (by decide)
      simp only [newlines] at hcount ⊢
      rw [List.count_append, hcount, List.count_eq_zero.mpr hnot, List.count_append,
        List.count_singleton, if_neg (by simpa using hother)]

/-- The line of a cursor counts the newlines before it, with 32 bits. -/
theorem Stands.line_eq (stands : Stands source past cursor) :
    cursor.line.toNat =
      (1 + ((bytesOf source).take (place source cursor)).count newline) % UInt32.size := by
  obtain ⟨done, owing, hbytes, hplace, -, -, hcount⟩ := stands.bytes
  rw [hbytes, ← hplace, List.take_left, hcount, stands.line, lineAfter]
  simp [UInt32.toNat_add, UInt32.size]

/-- What lies ahead of a cursor. -/
theorem Stands.drop_place (stands : Stands source past cursor) (owes : cursor.owed = 0) :
    (bytesOf source).drop (place source cursor) = utf8 cursor.rest := by
  obtain ⟨done, owing, hbytes, hplace, howing, -⟩ := stands.bytes
  rw [hbytes, ← hplace, List.drop_left, List.length_eq_zero_iff.mp (howing.trans owes),
    List.nil_append]

/-- How many bytes lie before a cursor. -/
theorem Stands.place_add (stands : Stands source past cursor) :
    place source cursor + cursor.owed = String.utf8Len past := by
  have hsize : source.utf8ByteSize = String.utf8Len past + String.utf8Len cursor.rest := by
    rw [← String.utf8Len_toList, stands.split, String.utf8Len_append]
  have howed : cursor.owed ≤ String.utf8Len past := by
    rcases stands.owed with hzero | ⟨before, c, rfl, hless⟩
    · omega
    · rw [String.utf8Len_append, String.utf8Len_cons, String.utf8Len_nil]
      omega
  simp only [place, size]
  omega

/-- What is read is a token exactly. -/
theorem exact_of_reads {last start stop : Nat} (ordered : last ≤ start ∧ stop ≤ source.utf8ByteSize)
    (gap : Skips ((bytesOf source).drop last) ((bytesOf source).drop start))
    (reads : Reads ((bytesOf source).drop start) t n) (stops : stop = start + n)
    (span : t.kind ≠ .malformed → ∃ before after : String, source = before ++ t.lexeme ++ after ∧
      before.utf8ByteSize = start ∧ (before ++ t.lexeme).utf8ByteSize = stop) :
    Exact source last start stop t where
  ordered := ⟨ordered.1, by omega, ordered.2⟩
  gap := gap
  reads := by rwa [stops, Nat.add_sub_cancel_left]
  span := span
  malformed := reads.malformed_iff
  taken := fun hreal => by have := reads.taken hreal; omega

/-- A byte that is owed is a token of its own. -/
theorem Stands.owing (stands : Stands source past cursor) {owed : Nat}
    (owes : cursor.owed = owed + 1) :
    Stands source past { cursor with owed } ∧
      Exact source (place source cursor) (place source cursor) (place source { cursor with owed })
        ⟨.malformed, unexpectedCharacter, cursor.line.toNat⟩ := by
  have hafter : Stands source past { cursor with owed } := by
    refine ⟨stands.split, stands.line, stands.owed.imp (fun h => ?_) ?_⟩
    · omega
    · rintro ⟨before, c, hpast, hless⟩
      exact ⟨before, c, hpast, by simp only; omega⟩
  have hplace := stands.place_add
  have hplace' := hafter.place_add
  obtain ⟨done, owing, hbytes, hdone, howing, hlarge, -⟩ := stands.bytes
  obtain ⟨b, others, rfl⟩ := List.exists_cons_of_length_eq_add_one (howing.trans owes)
  have hb := hlarge b (List.mem_cons_self ..)
  have hdrop : (bytesOf source).drop (place source cursor) =
      b :: (others ++ utf8 cursor.rest) := by
    rw [hbytes, ← hdone, List.drop_left, List.cons_append]
  refine ⟨hafter, exact_of_reads ⟨Nat.le_refl _, Nat.sub_le _ _⟩ (.stop ?_ ?_)
    (.unexpected hdrop (startsNone_of_le hb) rfl rfl) ?_ fun hkind => absurd rfl hkind⟩
  · rw [hdrop]
    rintro _ ⟨⟩ hmem
    have hsmall := List.all_eq_true.mp
      (show blanks.all (fun b => b.toNat < 128) = true by decide) b hmem
    exact absurd hb (Nat.not_le.mpr (by simpa using hsmall))
  · rw [hdrop]
    rintro hcomment
    obtain ⟨rfl, -⟩ := List.cons_prefix_cons.mp hcomment
    exact absurd hb (by decide)
  · simp only at hplace'
    omega

/-- No blank stands where a token starts. -/
theorem skips_first {ahead after : List UInt8} (skips : Skips ahead after) :
    ∀ b ∈ after.head?, b ∉ blanks := by
  induction skips with
  | stop blank => exact blank
  | blank _ _ ih => exact ih
  | comment _ _ _ ih => exact ih

/-- Where nothing is owed, a token starts behind the blanks. -/
theorem token_of_owed_zero (owes : cursor.owed = 0) :
    cursor.token = tokenHere
      { rest := (skipBlank cursor.rest cursor.line).1
        line := (skipBlank cursor.rest cursor.line).2 } := by
  unfold token
  rw [owes]

/-- A byte that is owed is reported. -/
theorem token_of_owed_succ {owed : Nat} (owes : cursor.owed = owed + 1) :
    cursor.token = (⟨.malformed, unexpectedCharacter, cursor.line.toNat⟩,
      { cursor with owed }) := by
  unfold token
  rw [owes]

/-- The token at a place of which nothing is owed. -/
theorem Stands.reading (stands : Stands source past cursor) (owes : cursor.owed = 0) :
    ∃ past' start, Stands source past' cursor.token.2 ∧
      Exact source (place source cursor) start (place source cursor.token.2) cursor.token.1 ∧
      cursor.token.1.line = cursor.token.2.line.toNat := by
  obtain ⟨gap, hgap, hline, hskips⟩ := skipBlank_spec cursor.rest cursor.line
  have htoken := token_of_owed_zero owes
  have hreal : ∀ more, (skipBlank cursor.rest cursor.line).1 ≠ '\n' :: more := by
    intro more hmore
    refine skips_first hskips newline ?_ (by decide)
    rw [hmore, utf8_cons, utf8EncodeChar_of_lt (by decide)]
    rfl
  obtain ⟨text, htakes⟩ := tokenHere_takes (skipBlank cursor.rest cursor.line).2 hreal
  rw [← htoken] at htakes
  obtain ⟨htaken, hcounted, hends, howed, hreads, hlexeme⟩ := htakes
  -- the place between the gap and the token
  have hmiddle : Stands source (past ++ gap)
      { rest := (skipBlank cursor.rest cursor.line).1
        line := (skipBlank cursor.rest cursor.line).2 } := by
    refine ⟨by rw [List.append_assoc, ← hgap, stands.split], ?_, .inl rfl⟩
    rw [hline, stands.line, lineAfter_append]
  have hafter : Stands source (past ++ gap ++ text) cursor.token.2 := by
    refine ⟨by rw [hmiddle.split, List.append_assoc _ text, ← htaken], ?_, howed.imp_right ?_⟩
    · rw [hcounted, show (skipBlank cursor.rest cursor.line).2 = lineAfter 1 (past ++ gap) from
        hmiddle.line, ← lineAfter_append]
    · rintro ⟨c, rfl, hless⟩
      exact ⟨past ++ gap, c, rfl, hless⟩
  have hplace := stands.place_add
  have hplace₁ := hmiddle.place_add
  have hplace₂ := hafter.place_add
  rw [String.utf8Len_append] at hplace₁ hplace₂
  rw [String.utf8Len_append] at hplace₂
  have hstop : place source cursor.token.2 =
      String.utf8Len past + String.utf8Len gap + (String.utf8Len text - cursor.token.2.owed) := by
    have hle : cursor.token.2.owed ≤ String.utf8Len text := by
      rcases howed with hzero | ⟨c, rfl, hless⟩
      · omega
      · rw [String.utf8Len_cons, String.utf8Len_nil]
        omega
    omega
  have hdrop := hmiddle.drop_place rfl
  simp only [Nat.add_zero] at hplace₁ hdrop
  rw [hplace₁] at hdrop
  refine ⟨_, _, hafter, exact_of_reads ⟨?_, Nat.sub_le _ _⟩ ?_ (hdrop ▸ hreads) hstop ?_, hends⟩
  · omega
  · rw [stands.drop_place owes, hdrop]
    exact hskips
  · intro hkind
    obtain ⟨hchars, hzero⟩ := hlexeme hkind
    refine ⟨String.ofList (past ++ gap), String.ofList cursor.token.2.rest, ?_, ?_, ?_⟩
    · rw [← String.toList_inj, hafter.split]
      simp [hchars]
    · rw [String.utf8ByteSize_ofList, String.utf8Len_append]
    · rw [String.utf8ByteSize_append, String.utf8ByteSize_ofList, String.utf8Len_append,
        ← String.utf8Len_toList, hchars]
      omega

/-- The token at any place of a source. -/
theorem Stands.token (stands : Stands source past cursor) :
    ∃ past' start, Stands source past' cursor.token.2 ∧
      Exact source (place source cursor) start (place source cursor.token.2) cursor.token.1 ∧
      cursor.token.1.line = cursor.token.2.line.toNat := by
  cases howed : cursor.owed with
  | zero => exact stands.reading howed
  | succ owed =>
      obtain ⟨hafter, hexact⟩ := stands.owing howed
      rw [token_of_owed_succ howed]
      exact ⟨past, _, hafter, hexact, rfl⟩

/-! ### All tokens -/

/-- The place after so many tokens. -/
def after : Nat → Cursor → Cursor
  | 0, cursor => cursor
  | i + 1, cursor => after i cursor.token.2

/-- One token more. -/
theorem after_succ (i : Nat) (cursor : Cursor) :
    after (i + 1) cursor = (after i cursor).token.2 := by
  induction i generalizing cursor with
  | zero => rfl
  | succ i ih => exact ih _

/-- Every place that is reached is a place of the source. -/
theorem Stands.after (stands : Stands source past cursor) (i : Nat) :
    ∃ past', Stands source past' (after i cursor) := by
  induction i with
  | zero => exact ⟨past, stands⟩
  | succ i ih =>
      obtain ⟨past', hstands⟩ := ih
      obtain ⟨past'', -, hafter, -⟩ := hstands.token
      rw [after_succ]
      exact ⟨past'', hafter⟩

/-- The end of input stays the end. -/
theorem token_ending (ending : cursor.token.1.kind = .endOfInput) :
    cursor.token.2.token = cursor.token := by
  cases howed : cursor.owed with
  | succ owed =>
      rw [token_of_owed_succ howed] at ending
      cases ending
  | zero =>
      rw [token_of_owed_zero howed] at ending ⊢
      have hnil : (skipBlank cursor.rest cursor.line).1 = [] := by
        by_contra hreal
        exact tokenHere_real hreal ending
      rw [hnil]
      simp [tokenHere, token, skipBlank]

/-- After the end of input, every token is the end of input. -/
theorem token_after_ending (ending : cursor.token.1.kind = .endOfInput) (i : Nat) :
    (after i cursor).token = cursor.token := by
  induction i with
  | zero => rfl
  | succ i ih =>
      rw [after_succ, ih]
      exact token_ending ending

/-- With a budget for every byte ahead, the tokens are those of each place up to the end of
input. -/
theorem tokens_eq {bytes : Nat} (enough : cursor.size ≤ bytes) :
    ∃ count, tokens bytes cursor =
        ((List.range count).map fun i => (after i cursor).token.1,
          (after count cursor).token.1) ∧
      ∀ i, (after i cursor).token.1.kind = .endOfInput ↔ count ≤ i := by
  have hstop : cursor.token.1.kind = .endOfInput →
      ∀ i, (after i cursor).token.1.kind = .endOfInput ↔ 0 ≤ i := fun hkind i =>
    iff_of_true (by rw [token_after_ending hkind, hkind]) (Nat.zero_le i)
  induction bytes generalizing cursor with
  | zero => exact ⟨0, rfl, hstop ((token_promises cursor).drained (by omega))⟩
  | succ bytes ih =>
      by_cases hkind : cursor.token.1.kind = .endOfInput
      · exact ⟨0, by simp [tokens, hkind, after], hstop hkind⟩
      · have hless := (token_promises cursor).taken hkind
        obtain ⟨count, hall, hends⟩ := ih (show cursor.token.2.size ≤ bytes by omega)
          fun hkind i => iff_of_true (by rw [token_after_ending hkind, hkind]) (Nat.zero_le i)
        refine ⟨count + 1, ?_, fun i => ?_⟩
        · simp only [tokens, if_neg hkind, hall, List.range_succ_eq_map, List.map_cons,
            List.map_map]
          rfl
        · cases i with
          | zero => exact iff_of_false hkind (by omega)
          | succ i => exact (hends i).trans Nat.succ_le_succ_iff.symm

end Cursor

/-- The token that a source gives after so many. -/
def tokenAt (source : String) (i : Nat) : Token := (after i (start source)).token.1

/-- How many bytes of a source are consumed for so many tokens. -/
def placeAt (source : String) (i : Nat) : Nat := place source (after i (start source))

/-- Every token of a source is read exactly. -/
theorem exact_tokenAt (source : String) (i : Nat) :
    ∃ start, Exact source (placeAt source i) start (placeAt source (i + 1)) (tokenAt source i) := by
  obtain ⟨past, hstands⟩ := (stands_start source).after i
  obtain ⟨-, start, -, hexact, -⟩ := hstands.token
  rw [placeAt, placeAt, after_succ]
  exact ⟨start, hexact⟩

/-- The tokens of a source: they reach the end of input and stay there. Their spans are disjoint
and in order, with blanks and comments in front of each, and each is read exactly. -/
theorem scan_exact (source : String) : ∃ count,
    TokenStream.ofSource source = ⟨(List.range count).map (tokenAt source), tokenAt source count⟩ ∧
    (∀ i, (tokenAt source i).kind = .endOfInput ↔ count ≤ i) ∧
    (∀ i, count ≤ i → tokenAt source i = tokenAt source count) ∧
    placeAt source 0 = 0 ∧
    ∀ i, ∃ start, Exact source (placeAt source i) start (placeAt source (i + 1))
      (tokenAt source i) := by
  have hsize : (start source).size = source.utf8ByteSize := by
    simp [size, start, String.utf8Len_toList]
  obtain ⟨count, hall, hends⟩ := tokens_eq hsize.le
  refine ⟨count, ?_, hends, fun i hi => ?_, ?_, exact_tokenAt source⟩
  · rw [TokenStream.ofSource, hall]
    rfl
  · obtain ⟨j, rfl⟩ := Nat.exists_eq_add_of_le hi
    have hkind := (hends count).mpr (Nat.le_refl count)
    have hadd : ∀ j, after (count + j) (start source) = after j (after count (start source)) := by
      intro j
      induction j with
      | zero => rfl
      | succ j ih => rw [← Nat.add_assoc, after_succ, ih, after_succ]
    simp only [tokenAt, hadd, token_after_ending hkind]
  · simp [placeAt, place, after, hsize]

/-- The line of a token counts the newlines up to its end, with 32 bits. -/
theorem tokenAt_line (source : String) (i : Nat) : (tokenAt source i).line =
    (1 + ((bytesOf source).take (placeAt source (i + 1))).count newline) % UInt32.size := by
  obtain ⟨past, hstands⟩ := (stands_start source).after i
  obtain ⟨past', -, hafter, -, hends⟩ := hstands.token
  rw [placeAt, after_succ, ← hafter.line_eq, ← hends, tokenAt]

/-- The line of a token is one more than the newlines up to its end, as long as the counter does
not run over. So lines never decrease. -/
theorem scan_line (source : String) (few : (bytesOf source).count newline + 1 < UInt32.size) :
    (∀ i, (tokenAt source i).line =
      1 + ((bytesOf source).take (placeAt source (i + 1))).count newline) ∧
    ∀ i j, i ≤ j → (tokenAt source i).line ≤ (tokenAt source j).line := by
  have hline : ∀ i, (tokenAt source i).line =
      1 + ((bytesOf source).take (placeAt source (i + 1))).count newline := by
    intro i
    have hle := ((List.take_sublist (placeAt source (i + 1)) (bytesOf source))).count_le newline
    rw [tokenAt_line, Nat.mod_eq_of_lt (by omega)]
  refine ⟨hline, fun i j hij => ?_⟩
  have hplace : placeAt source (i + 1) ≤ placeAt source (j + 1) := by
    refine monotone_nat_of_le_succ (fun k => ?_) (Nat.succ_le_succ hij)
    obtain ⟨start, hexact⟩ := exact_tokenAt source k
    exact hexact.ordered.1.trans hexact.ordered.2.1
  rw [hline, hline]
  exact Nat.add_le_add_left
    (List.Sublist.count_le _ (List.take_sublist_take_left hplace)) 1

/-- Lines are counted in a string, and behind a comment. -/
theorem scan_line_string :
    (bytesOf "\"a\nb\" // c\n;").count newline + 1 < UInt32.size ∧
    tokenAt "\"a\nb\" // c\n;" 0 = ⟨.string, "\"a\nb\"", 2⟩ ∧
    tokenAt "\"a\nb\" // c\n;" 1 = ⟨.semicolon, ";", 3⟩ ∧
    (tokenAt "\"a\nb\" // c\n;" 1).line =
      1 + ((bytesOf "\"a\nb\" // c\n;").take (placeAt "\"a\nb\" // c\n;" 2)).count newline := by
  have few : (bytesOf "\"a\nb\" // c\n;").count newline + 1 < UInt32.size := by decide +kernel
  exact ⟨few, by decide +kernel, by decide +kernel, (scan_line _ few).1 1⟩

/-- A row of newlines is skipped. -/
theorem skipBlank_replicate (n : Nat) (line : UInt32) :
    skipBlank (List.replicate n '\n') line = ([], line + .ofNat n) := by
  induction n generalizing line with
  | zero => simp [skipBlank]
  | succ n ih =>
      rw [List.replicate_succ, skipBlank, ih, Nat.add_comm, UInt32.ofNat_add, ← UInt32.add_assoc]
      rfl

/-- A source of newlines is all lines and no token. -/
theorem tokenAt_replicate (n : Nat) : tokenAt (String.ofList (List.replicate n '\n')) 0 =
    ⟨.endOfInput, "", (1 + UInt32.ofNat n).toNat⟩ := by
  simp only [tokenAt, after, start, String.toList_ofList]
  rw [token_of_owed_zero rfl]
  simp only [skipBlank_replicate]
  rfl

/-- With one newline fewer than the values of the counter, the end of input is on line zero. -/
theorem line_runs_over : ∃ source : String, (bytesOf source).count newline < UInt32.size ∧
    tokenAt source 0 = ⟨.endOfInput, "", 0⟩ ∧
    (tokenAt source 0).line ≠ 1 + ((bytesOf source).take (placeAt source 1)).count newline := by
  have hcount : (bytesOf (String.ofList (List.replicate (UInt32.size - 1) '\n'))).count newline =
      UInt32.size - 1 := by
    rw [bytesOf_eq, String.toList_ofList, newline, count_utf8 (by decide),
      List.count_replicate_self]
  have htoken := tokenAt_replicate (UInt32.size - 1)
  rw [show (1 + UInt32.ofNat (UInt32.size - 1)).toNat = 0 by decide] at htoken
  refine ⟨_, hcount.trans_lt (by decide), htoken, ?_⟩
  rw [htoken]
  exact Nat.ne_of_lt (Nat.lt_of_lt_of_le Nat.one_pos (Nat.le_add_right _ _))

end Lox
