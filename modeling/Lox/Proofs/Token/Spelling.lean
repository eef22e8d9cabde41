import Mathlib.Data.List.TakeWhile
import Lox.Proofs.Token.Joining

/-!
# What tokens look like

The texts of each kind of token, as they are told apart from how they are found. The marks and the
reserved words are tables. A word is a letter and more letters and digits, a number is digits with
or without a fraction, and a string is what stands between two quotes.

The first character tells the class of a token. Of each class the lexer takes the longest text
that is there.

## Main definitions

* `TokenKind.IsLetter`, `TokenKind.IsDigit` — the characters of words and numbers.
* `TokenKind.Spells` — the texts of a kind of token.

## Main results

* `TokenKind.startsWord_iff`, `TokenKind.isDigit_iff` — the lexer knows these characters.
* `TokenKind.Spells.first` — the first character tells the class.
* `spells_ofWord` — a word is reserved, or it is an identifier.
* `word_longest`, `number_longest`, `mark?_longest`, `string_longest` — what the lexer finds is the
  longest token that is there.
-/

namespace Lox

open Cursor

namespace TokenKind

/-- The marks and their kinds. -/
def marks : List (List Char × TokenKind) :=
  [(['('], leftParen), ([')'], rightParen), (['{'], leftBrace), (['}'], rightBrace),
    ([';'], semicolon), ([','], comma), (['.'], dot), (['-'], minus), (['+'], plus),
    (['/'], slash), (['*'], star), (['!'], bang), (['!', '='], bangEqual), (['='], equal),
    (['=', '='], equalEqual), (['<'], less), (['<', '='], lessEqual), (['>'], greater),
    (['>', '='], greaterEqual)]

/-- The reserved words and their kinds. -/
def reserved : List (String × TokenKind) :=
  [("and", andWord), ("class", classWord), ("else", elseWord), ("false", falseWord),
    ("for", forWord), ("fun", funWord), ("if", ifWord), ("nil", nilWord), ("or", orWord),
    ("print", printWord), ("return", returnWord), ("super", superWord), ("this", thisWord),
    ("true", trueWord), ("var", varWord), ("while", whileWord)]

/-- The letters of ASCII, and the underscore. -/
def IsLetter (c : Char) : Prop := 'a' ≤ c ∧ c ≤ 'z' ∨ 'A' ≤ c ∧ c ≤ 'Z' ∨ c = '_'

/-- The digits of ASCII. -/
def IsDigit (c : Char) : Prop := '0' ≤ c ∧ c ≤ '9'

/-- A letter, and letters and digits after it. -/
def IsWord (text : List Char) : Prop :=
  ∃ c rest, text = c :: rest ∧ IsLetter c ∧ ∀ d ∈ rest, IsLetter d ∨ IsDigit d

/-- At least one digit. -/
def IsDigits (text : List Char) : Prop := text ≠ [] ∧ ∀ d ∈ text, IsDigit d

/-- Digits, and a fraction or none. -/
def IsNumber (text : List Char) : Prop :=
  IsDigits text ∨
    ∃ whole fraction, IsDigits whole ∧ IsDigits fraction ∧ text = whole ++ '.' :: fraction

/-- A text between two quotes. -/
def IsString (text : List Char) : Prop := ∃ inside, '"' ∉ inside ∧ text = '"' :: (inside ++ ['"'])

/-- The texts of each kind of token. -/
inductive Spells : TokenKind → List Char → Prop
  | mark {kind : TokenKind} {text : List Char} (entry : (text, kind) ∈ marks) : Spells kind text
  | reserved {kind : TokenKind} {word : String} (entry : (word, kind) ∈ reserved) :
      Spells kind word.toList
  | identifier {text : List Char} (word : IsWord text)
      (free : ∀ entry ∈ TokenKind.reserved, entry.1.toList ≠ text) : Spells .identifier text
  | number {text : List Char} (number : IsNumber text) : Spells .number text
  | string {text : List Char} (string : IsString text) : Spells .string text

variable {kind : TokenKind} {text rest : List Char} {c : Char} {n : Nat}

/-! ### Letters and digits -/

theorem isDigit_iff : c.isDigit = true ↔ IsDigit c := by
  simp [Char.isDigit, IsDigit, Char.le_def]

theorem startsWord_iff : startsWord c = true ↔ IsLetter c := by
  have hupper : c.isUpper = true ↔ 'A' ≤ c ∧ c ≤ 'Z' := decide_eq_true_iff
  have hlower : c.isLower = true ↔ 'a' ≤ c ∧ c ≤ 'z' := by
    change (decide ('a' ≤ c) && decide (c ≤ 'z')) = true ↔ _
    rw [Bool.and_eq_true, decide_eq_true_eq, decide_eq_true_eq]
  have halpha : c.isAlpha = true ↔ c.isUpper = true ∨ c.isLower = true :=
    iff_of_eq (Bool.or_eq_true ..)
  simp only [startsWord, Bool.or_eq_true, halpha, hupper, hlower, decide_eq_true_eq, IsLetter]
  tauto

theorem continuesWord_iff : continuesWord c = true ↔ IsLetter c ∨ IsDigit c := by
  rw [continuesWord, Bool.or_eq_true, startsWord_iff, isDigit_iff]

/-- The words, in terms of what the lexer asks of a character. -/
theorem isWord_iff : IsWord text ↔
    ∃ c rest, text = c :: rest ∧ startsWord c = true ∧ ∀ d ∈ rest, continuesWord d = true := by
  simp only [IsWord, startsWord_iff, continuesWord_iff]

theorem isDigits_iff : IsDigits text ↔ text ≠ [] ∧ ∀ d ∈ text, d.isDigit = true := by
  simp only [IsDigits, isDigit_iff]

/-! ### Words -/

/-- The reserved words are words. -/
theorem isWord_of_reserved : ∀ entry ∈ reserved, IsWord entry.1.toList := by
  have htable : reserved.all (fun entry => entry.1.toList.head?.any startsWord &&
      entry.1.toList.tail.all continuesWord) = true := by decide +kernel
  intro entry hentry
  obtain ⟨hfirst, hothers⟩ := Bool.and_eq_true_iff.mp (List.all_eq_true.mp htable entry hentry)
  rw [List.all_eq_true] at hothers
  cases htext : entry.1.toList with
  | nil => simp [htext] at hfirst
  | cons c rest =>
      rw [htext] at hfirst hothers
      exact isWord_iff.mpr ⟨c, rest, rfl, hfirst, hothers⟩

/-- The kind of a word. -/
theorem ofWord_cases (word : String) :
    (word, ofWord word) ∈ reserved ∨
      ofWord word = .identifier ∧ ∀ entry ∈ reserved, entry.1 ≠ word := by
  unfold ofWord
  split
  case h_17 =>
    rename_i hnone
    refine .inr ⟨rfl, fun entry hentry heq => ?_⟩
    simp only [reserved, List.mem_cons, List.not_mem_nil, or_false] at hentry
    rcases hentry with rfl | rfl | rfl | rfl | rfl | rfl | rfl | rfl | rfl | rfl | rfl | rfl |
      rfl | rfl | rfl | rfl
    all_goals
      subst heq
      simp at *
  all_goals exact .inl (by simp [reserved])

/-- A word is reserved, or it is an identifier. -/
theorem spells_ofWord (word : IsWord text) : Spells (ofWord (String.ofList text)) text := by
  rcases ofWord_cases (String.ofList text) with hreserved | ⟨hkind, hfree⟩
  · simpa using Spells.reserved hreserved
  · rw [hkind]
    refine .identifier word fun entry hentry heq => hfree entry hentry ?_
    rw [← heq, String.ofList_toList]

/-! ### The first character -/

theorem isDigit_iff_toNat : c.isDigit = true ↔ 48 ≤ c.toNat ∧ c.toNat ≤ 57 := by
  simp [Char.isDigit, UInt32.le_iff_toNat_le]

/-- Where the letters are. -/
theorem startsWord_bounds (letter : startsWord c = true) : 65 ≤ c.toNat ∧ c.toNat ≤ 122 := by
  have hval : c.toNat = c.val.toNat := rfl
  change (decide (c.val ≥ 65 ∧ c.val ≤ 90) || (c.val ≥ 97 && c.val ≤ 122) || c = '_') = true
    at letter
  simp only [UInt32.le_iff_toNat_le, ge_iff_le, Bool.or_eq_true, Bool.and_eq_true,
    decide_eq_true_eq] at letter
  rcases letter with (⟨hlow, hhigh⟩ | ⟨hlow, hhigh⟩) | rfl
  · exact ⟨hlow, hhigh.trans (by decide)⟩
  · exact ⟨.trans (by decide) hlow, hhigh⟩
  · decide

/-- A letter is of ASCII, and it starts nothing but words. -/
theorem startsWord_spec (letter : startsWord c = true) :
    c.toNat < 128 ∧ c.isDigit = false ∧ c ≠ '"' := by
  have hbounds := startsWord_bounds letter
  refine ⟨by omega, ?_, ?_⟩
  · rw [Bool.eq_false_iff, ne_eq, isDigit_iff_toNat]
    omega
  · rintro rfl
    exact absurd hbounds (by decide)

/-- A digit is of ASCII, and it starts nothing but numbers. -/
theorem isDigit_spec (digit : c.isDigit = true) :
    c.toNat < 128 ∧ startsWord c = false ∧ c ≠ '"' := by
  have hbounds := isDigit_iff_toNat.mp digit
  refine ⟨by omega, ?_, ?_⟩
  · rw [Bool.eq_false_iff]
    intro hletter
    have := startsWord_bounds hletter
    omega
  · rintro rfl
    exact absurd hbounds (by decide)

/-- Every mark has a first character, and it starts nothing but marks. -/
theorem marks_spec {entry : List Char × TokenKind} (mem : entry ∈ marks) :
    ∃ c more, entry.1 = c :: more ∧ c.toNat < 128 ∧ startsWord c = false ∧ c.isDigit = false ∧
      c ≠ '"' := by
  have htable : marks.all (fun entry => entry.1.head?.any fun c => c.toNat < 128 && !startsWord c &&
      !c.isDigit && c != '"') = true := by decide +kernel
  have hentry := List.all_eq_true.mp htable entry mem
  cases hfirst : entry.1 with
  | nil => simp [hfirst] at hentry
  | cons c more =>
      rw [hfirst] at hentry
      exact ⟨c, more, rfl, by simpa [and_assoc] using hentry⟩

/-- The first character tells the class of a token. -/
theorem Spells.first (spells : Spells kind text) :
    ∃ c more, text = c :: more ∧
      (startsWord c = true ∧ IsWord text ∨ c.isDigit = true ∧ IsNumber text ∨
        c = '"' ∧ IsString text ∨ (text, kind) ∈ marks) := by
  have hword : ∀ {text}, IsWord text → ∃ c more, text = c :: more ∧
      (startsWord c = true ∧ IsWord text ∨ c.isDigit = true ∧ IsNumber text ∨
        c = '"' ∧ IsString text ∨ (text, kind) ∈ marks) := by
    intro _ word
    obtain ⟨c, more, rfl, hc, -⟩ := isWord_iff.mp word
    exact ⟨c, more, rfl, .inl ⟨hc, word⟩⟩
  cases spells with
  | mark entry =>
      obtain ⟨c, more, htext, -⟩ := marks_spec entry
      exact ⟨c, more, htext, .inr (.inr (.inr entry))⟩
  | reserved entry => exact hword (isWord_of_reserved _ entry)
  | identifier word => exact hword word
  | number number =>
      have hdigits : ∀ {digits more}, IsDigits digits → text = digits ++ more →
          ∃ c more, text = c :: more ∧ c.isDigit = true := by
        rintro digits more hdigits rfl
        obtain ⟨hnone, hall⟩ := isDigits_iff.mp hdigits
        obtain ⟨c, digits, rfl⟩ := List.exists_cons_of_ne_nil hnone
        exact ⟨c, digits ++ more, rfl, hall c (List.mem_cons_self ..)⟩
      obtain ⟨c, more, htext, hc⟩ : ∃ c more, text = c :: more ∧ c.isDigit = true := by
        rcases number with hwhole | ⟨whole, fraction, hwhole, -, htext⟩
        · exact hdigits hwhole (List.append_nil text).symm
        · exact hdigits hwhole htext
      exact ⟨c, more, htext, .inr (.inl ⟨hc, number⟩)⟩
  | string string =>
      obtain ⟨inside, hinside, rfl⟩ := string
      exact ⟨'"', _, rfl, .inr (.inr (.inl ⟨rfl, inside, hinside, rfl⟩))⟩

/-- A token starts with a character of ASCII. -/
theorem Spells.ascii (spells : Spells kind (c :: text)) : c.toNat < 128 := by
  obtain ⟨d, more, heq, hclass⟩ := spells.first
  obtain ⟨rfl, rfl⟩ := List.cons_eq_cons.mp heq
  rcases hclass with ⟨hc, -⟩ | ⟨hc, -⟩ | ⟨rfl, -⟩ | hmark
  · exact (startsWord_spec hc).1
  · exact (isDigit_spec hc).1
  · decide
  · obtain ⟨d, more, heq, hascii, -⟩ := marks_spec hmark
    obtain ⟨rfl, -⟩ := List.cons_eq_cons.mp heq
    exact hascii

/-- What starts with a letter is a word. -/
theorem Spells.isWord (spells : Spells kind (c :: text)) (letter : startsWord c = true) :
    IsWord (c :: text) := by
  obtain ⟨-, hdigit, hquote⟩ := startsWord_spec letter
  obtain ⟨d, more, heq, hclass⟩ := spells.first
  obtain ⟨rfl, rfl⟩ := List.cons_eq_cons.mp heq
  rcases hclass with ⟨-, hword⟩ | ⟨hc, -⟩ | ⟨hc, -⟩ | hmark
  · exact hword
  · simp [hc] at hdigit
  · exact absurd hc hquote
  · obtain ⟨d, more, heq, -, hletter, -⟩ := marks_spec hmark
    obtain ⟨rfl, -⟩ := List.cons_eq_cons.mp heq
    simp [letter] at hletter

/-- What starts with a digit is a number. -/
theorem Spells.isNumber (spells : Spells kind (c :: text)) (digit : c.isDigit = true) :
    IsNumber (c :: text) := by
  obtain ⟨-, hletter, hquote⟩ := isDigit_spec digit
  obtain ⟨d, more, heq, hclass⟩ := spells.first
  obtain ⟨rfl, rfl⟩ := List.cons_eq_cons.mp heq
  rcases hclass with ⟨hc, -⟩ | ⟨-, hnumber⟩ | ⟨hc, -⟩ | hmark
  · simp [hc] at hletter
  · exact hnumber
  · exact absurd hc hquote
  · obtain ⟨d, more, heq, -, -, hdigit, -⟩ := marks_spec hmark
    obtain ⟨rfl, -⟩ := List.cons_eq_cons.mp heq
    simp [digit] at hdigit

/-- What starts with a quote is a string. -/
theorem Spells.isString (spells : Spells kind ('"' :: text)) : IsString ('"' :: text) := by
  obtain ⟨d, more, heq, hclass⟩ := spells.first
  obtain ⟨rfl, rfl⟩ := List.cons_eq_cons.mp heq
  rcases hclass with ⟨hc, -⟩ | ⟨hc, -⟩ | ⟨-, hstring⟩ | hmark
  · exact absurd hc (by decide)
  · exact absurd hc (by decide)
  · exact hstring
  · obtain ⟨d, more, heq, -, -, -, hquote⟩ := marks_spec hmark
    exact absurd (List.cons_eq_cons.mp heq).1.symm hquote

/-- What starts with no letter, digit or quote is a mark. -/
theorem Spells.isMark (spells : Spells kind (c :: text)) (letter : startsWord c = false)
    (digit : c.isDigit = false) (quote : c ≠ '"') : (c :: text, kind) ∈ marks := by
  obtain ⟨d, more, heq, hclass⟩ := spells.first
  obtain ⟨rfl, rfl⟩ := List.cons_eq_cons.mp heq
  rcases hclass with ⟨hc, -⟩ | ⟨hc, -⟩ | ⟨hc, -⟩ | hmark
  · simp [hc] at letter
  · simp [hc] at digit
  · exact absurd hc quote
  · exact hmark

/-! ### The longest text that is there -/

/-- A text of such characters goes no further than the characters do. -/
theorem length_le_takeWhile {p : Char → Bool} (all : ∀ d ∈ text, p d = true)
    (here : text <+: rest) : text.length ≤ (rest.takeWhile p).length := by
  obtain ⟨more, rfl⟩ := here
  rw [List.takeWhile_append_of_pos all, List.length_append]
  exact Nat.le_add_right _ _

/-- The word that a text starts with is the longest token there. -/
theorem word_longest (letter : startsWord c = true) (spells : Spells kind text)
    (here : text <+: c :: rest) : text.length ≤ ((c :: rest).takeWhile continuesWord).length := by
  obtain ⟨d, more, rfl, -⟩ := spells.first
  obtain rfl : d = c := (List.cons_prefix_cons.mp here).1
  obtain ⟨e, others, heq, he, hothers⟩ := isWord_iff.mp (spells.isWord letter)
  obtain ⟨rfl, rfl⟩ := List.cons_eq_cons.mp heq
  refine length_le_takeWhile (fun d hd => ?_) here
  rcases List.mem_cons.mp hd with rfl | hd
  · simp [continuesWord, he]
  · exact hothers d hd

/-- The word that a text starts with. -/
theorem isWord_takeWhile (letter : startsWord c = true) :
    IsWord ((c :: rest).takeWhile continuesWord) := by
  rw [List.takeWhile_cons_of_pos (by simp [continuesWord, letter])]
  exact isWord_iff.mpr ⟨c, _, rfl, letter, fun d hd => List.mem_takeWhile_imp hd⟩

/-- The number that a text starts with. -/
theorem isNumber_take (digit : c.isDigit = true) :
    IsNumber ((c :: rest).take (numberLength (c :: rest))) := by
  have hwhole : IsDigits ((c :: rest).takeWhile Char.isDigit) :=
    isDigits_iff.mpr ⟨by simp [digit], fun d hd => List.mem_takeWhile_imp hd⟩
  have hsplit : ∃ others, c :: rest = (c :: rest).takeWhile Char.isDigit ++ others :=
    ⟨_, List.takeWhile_append_dropWhile.symm⟩
  unfold numberLength
  generalize (c :: rest).takeWhile Char.isDigit = whole at hwhole hsplit
  obtain ⟨others, heq⟩ := hsplit
  rw [heq]
  simp only [List.drop_left]
  split
  · rename_i more
    split
    · rw [List.take_left]
      exact .inl hwhole
    · rename_i hsome
      refine .inr ⟨whole, more.takeWhile Char.isDigit, hwhole,
        isDigits_iff.mpr ⟨by simpa using hsome, fun d hd => List.mem_takeWhile_imp hd⟩, ?_⟩
      rw [Nat.add_assoc, List.take_length_add_append, Nat.add_comm, List.take_succ_cons,
        ← List.prefix_iff_eq_take.mp (List.takeWhile_prefix _)]
  · rw [List.take_left]
    exact .inl hwhole

/-- The digits that a text starts with belong to the number. -/
theorem takeWhile_le_numberLength (text : List Char) :
    (text.takeWhile Char.isDigit).length ≤ numberLength text := by
  unfold numberLength
  dsimp only
  split
  · split <;> omega
  · exact Nat.le_refl _

/-- The number that a text starts with is the longest token there. -/
theorem number_longest (digit : c.isDigit = true) (spells : Spells kind text)
    (here : text <+: c :: rest) : text.length ≤ numberLength (c :: rest) := by
  obtain ⟨d, others, rfl, -⟩ := spells.first
  obtain rfl : d = c := (List.cons_prefix_cons.mp here).1
  rcases spells.isNumber digit with hdigits | ⟨whole, fraction, hwhole, hfraction, heq⟩
  · exact (length_le_takeWhile (isDigits_iff.mp hdigits).2 here).trans (takeWhile_le_numberLength _)
  · rw [isDigits_iff] at hwhole hfraction
    rw [heq] at here ⊢
    obtain ⟨more, hmore⟩ := here
    have hlength : fraction.length ≤ ((fraction ++ more).takeWhile Char.isDigit).length :=
      length_le_takeWhile hfraction.2 (List.prefix_append ..)
    have hpos := List.length_pos_iff.mpr hfraction.1
    rw [← hmore, List.append_assoc, List.cons_append, numberLength]
    simp only [List.takeWhile_append_of_pos hwhole.2, List.takeWhile_cons_of_neg
      (show ¬ Char.isDigit '.' = true by decide), List.append_nil, List.drop_left,
      List.length_append, List.length_cons]
    rw [if_neg (by omega)]
    omega

/-- The mark that a text starts with is one, and it is the longest there. -/
theorem mark?_longest (found : mark? rest = some (kind, n)) :
    (rest.take n, kind) ∈ marks ∧ ∀ entry ∈ marks, entry.1 <+: rest → entry.1.length ≤ n := by
  -- where a mark has two versions, the shorter is found only if the longer is not there
  have hsingle : ∀ {more : List Char}, (∀ rest, more = '=' :: rest → False) → ¬ ['='] <+: more :=
    fun hnot ⟨rest, hrest⟩ => hnot rest hrest.symm
  unfold mark? at found
  split at found <;> cases found <;>
    simp_all [marks, List.cons_prefix_cons]

/-- Where no mark is found, no mark starts with the character that is there. -/
theorem mark?_none (none : mark? (c :: rest) = none) :
    ∀ entry ∈ marks, entry.1.head? ≠ some c := by
  unfold mark? at none
  split at none
  case h_20 => simp_all [marks, eq_comm (b := c)]
  all_goals cases none

/-- The string that a text starts with is the longest token there. -/
theorem string_longest {inside more : List Char} (spells : Spells kind text)
    (here : text <+: '"' :: (inside ++ '"' :: more)) : text.length ≤ inside.length + 2 := by
  obtain ⟨d, others, rfl, -⟩ := spells.first
  obtain ⟨rfl, hhere⟩ := List.cons_prefix_cons.mp here
  obtain ⟨inside', hplain, heq⟩ := spells.isString
  obtain rfl := (List.cons_eq_cons.mp heq).2
  have hle : inside'.length ≤ ((inside ++ '"' :: more).takeWhile (· ≠ '"')).length := by
    refine length_le_takeWhile (fun d hd => ?_) ((List.prefix_append ..).trans hhere)
    rw [decide_eq_true_eq]
    rintro rfl
    exact hplain hd
  have hsome : ((inside ++ '"' :: more).takeWhile (· ≠ '"')).length ≤ inside.length := by
    rw [List.takeWhile_append]
    split
    · simp
    · exact (List.takeWhile_prefix _).length_le
  simp only [List.length_cons, List.length_append, List.length_nil]
  omega

/-- No string starts where no other quote follows. -/
theorem Spells.mem_quote (spells : Spells kind ('"' :: text)) : '"' ∈ text := by
  obtain ⟨inside, -, heq⟩ := spells.isString
  rw [(List.cons_eq_cons.mp heq).2]
  exact List.mem_append_right _ (List.mem_singleton_self _)

end TokenKind

end Lox
