import Lox.Number.Text
import Lox.Proofs.Number.Shortest

/-!
# Printed numbers read back

The text of a finite double is a sign and a decimal that rounds to the double, so reading the text
gives back its bits.

All branches of the printer write decimals of one form: digits, digits after a point, and an
exponent, where the last two may be left out. `Spelling` is this form, and the reader is shown once
to get back the decimal that is spelled. Each branch then only has to spell the decimal that it was
given.

The reader is shown to round correctly whatever decimal it reads. As rounding has one result only,
the bits that it gives to a decimal in the interval of a double are those of the double.

## Main definitions

* `Spelling` — the parts that a decimal is written with.

## Main results

* `nearestTo_roundsTo` — reading rounds correctly.
* `Spelling.read` — reading gets back what is spelled.
* `exists_spelling` — every finite magnitude is printed as a decimal that rounds to it.
* `text_reads_back` — reading what is printed.
-/

namespace Lox.Number

open Binary64 Decimal

/-! ### Reading rounds correctly -/

/-- A decimal is below the power of ten that its point stands for. -/
theorem value_lt_zpow_point (d : Decimal) : d.value < 10 ^ d.point := by
  have hdigits : (d.digits : ℚ) < 10 ^ length d.digits := by exact_mod_cast lt_pow_length d.digits
  rw [Decimal.value, Decimal.point, zpow_add₀ (by norm_num), zpow_natCast]
  exact mul_lt_mul_of_pos_right hdigits (zpow_pos (by norm_num) _)

/-- A decimal other than zero reaches the power of ten before it. -/
theorem zpow_point_le_value {d : Decimal} (pos : 0 < d.digits) :
    (10 : ℚ) ^ (d.point - 1) ≤ d.value := by
  have hdigits : (10 : ℚ) ^ (length d.digits - 1) ≤ d.digits := by exact_mod_cast pow_length_le pos
  have hlength := length_pos d.digits
  rw [Decimal.value, Decimal.point, show (length d.digits : Int) + d.exponent - 1 =
    ((length d.digits - 1 : Nat) : Int) + d.exponent by omega,
      zpow_add₀ (by norm_num), zpow_natCast]
  exact mul_le_mul_of_nonneg_right hdigits (zpow_pos (by norm_num) _).le

/-- Four hundred places are more than doubles have on either side of the point. -/
theorem two_zpow_le : 2 * (10 : ℚ) ^ (-401 : Int) ≤ Binary64.value 1 := by
  have hone : (0 : ℚ) < one := by exact_mod_cast Binary64.one_pos
  have hle : 2 * one ≤ 10 ^ 401 * units 1 := by decide +kernel
  rw [Binary64.value, zpow_neg, ← div_eq_mul_inv, div_le_div_iff₀ (by positivity) hone]
  rw [Nat.mul_comm _ (units 1)] at hle
  exact_mod_cast hle

theorem value_infinity_le : Binary64.value infinity ≤ (10 : ℚ) ^ (400 : Int) := by
  have hone : (0 : ℚ) < one := by exact_mod_cast Binary64.one_pos
  have hle : units infinity ≤ 10 ^ 400 * one := by decide +kernel
  rw [Binary64.value, div_le_iff₀ hone]
  exact_mod_cast hle

/-- Reading a decimal rounds correctly. -/
theorem nearestTo_roundsTo (d : Decimal) : RoundsTo d.value (nearestTo d) := by
  unfold nearestTo
  split
  · rename_i hsmall
    refine .zero (le_trans ?_ two_zpow_le)
    rcases hsmall with hzero | hpoint
    · rw [Decimal.value, hzero, Nat.cast_zero, zero_mul, mul_zero]
      positivity
    · have hle : (10 : ℚ) ^ d.point ≤ 10 ^ (-401 : Int) :=
        zpow_le_zpow_right₀ (by norm_num) (by omega)
      linarith [value_lt_zpow_point d]
  · rename_i hsmall
    split
    · have hle : (10 : ℚ) ^ (400 : Int) ≤ 10 ^ (d.point - 1) :=
        zpow_le_zpow_right₀ (by norm_num) (by omega)
      exact .infinity (value_infinity_le.trans (hle.trans (zpow_point_le_value (by omega))))
    · rw [Decimal.value_eq_div]
      exact nearest_roundsTo _ (powerOfTen_pos _)

/-! ### Digits -/

theorem wholeValue_eq (cs : List Char) : wholeValue cs = Nat.ofDigitChars 10 cs 0 :=
  Nat.ofDigitChars_eq_foldl.symm

/-- Digits in front of others. -/
theorem wholeValue_append (cs ds : List Char) :
    wholeValue (cs ++ ds) = wholeValue cs * 10 ^ ds.length + wholeValue ds := by
  rw [wholeValue_eq, Nat.ofDigitChars_append, Nat.ofDigitChars_eq_ofDigitChars_zero, wholeValue_eq,
    wholeValue_eq, Nat.mul_comm]

@[simp] theorem wholeValue_wholeText (n : Nat) : wholeValue (wholeText n) = n := by
  rw [wholeValue_eq, wholeText, Nat.ofDigitChars_ten_toDigits]

@[simp] theorem wholeValue_zeros (n : Nat) : wholeValue (zeros n) = 0 := by
  induction n with
  | zero => rfl
  | succ n ih =>
      rw [zeros, List.replicate_succ', wholeValue_append, ← zeros, ih]
      rfl

theorem isDigit_of_mem_wholeText {n : Nat} {c : Char} (h : c ∈ wholeText n) : c.isDigit = true :=
  Nat.isDigit_of_mem_toDigits (by decide) (by decide) h

theorem isDigit_of_mem_zeros {n : Nat} {c : Char} (h : c ∈ zeros n) : c.isDigit = true := by
  rw [List.eq_of_mem_replicate h]
  rfl

theorem length_zeros (n : Nat) : (zeros n).length = n := List.length_replicate

/-- Digits are not letters. -/
theorem toLower_of_isDigit {c : Char} (digit : c.isDigit = true) : c.toLower = c := by
  simp only [Char.isDigit, ge_iff_le, Bool.and_eq_true, decide_eq_true_eq, UInt32.le_iff_toNat_le]
    at digit
  refine dif_neg fun h => ?_
  have h := UInt32.le_iff_toNat_le.mp h.1
  have : UInt32.toNat '9'.val < UInt32.toNat 'A'.val := by decide
  omega

/-- Text that starts with a digit has no sign. -/
theorem readSign_of_isDigit {c : Char} (cs : List Char) (digit : c.isDigit = true) :
    readSign (c :: cs) = (false, c :: cs) := by
  unfold readSign
  split
  · rename_i h
    cases h
    cases digit
  · rename_i h
    cases h
    cases digit
  · rfl

theorem readSign_wholeText (n : Nat) : readSign (wholeText n) = (false, wholeText n) := by
  cases h : wholeText n with
  | nil => rfl
  | cons c cs => exact readSign_of_isDigit cs (isDigit_of_mem_wholeText (h ▸ List.mem_cons_self ..))

/-! ### Spelled decimals -/

/-- The parts that a decimal is written with: digits, digits after a point, and an exponent. -/
structure Spelling where
  whole : List Char
  fraction : Option (List Char)
  exponent : Option Int
  /-- At least one digit stands before the point. -/
  nonempty : whole ≠ []
  digits : ∀ c ∈ whole ++ fraction.getD [], c.isDigit = true

namespace Spelling

/-- What is written. -/
def text (s : Spelling) : List Char :=
  s.whole ++ ((s.fraction.map ('.' :: ·)).getD [] ++
    (s.exponent.map fun e => 'e' :: exponentText e).getD [])

/-- The decimal that is meant. -/
def decimal (s : Spelling) : Decimal :=
  ⟨wholeValue (s.whole ++ s.fraction.getD []), -(s.fraction.getD []).length + s.exponent.getD 0⟩

/-- Digits, and what comes behind them. -/
theorem split_digits {ds rest : List Char} (digits : ∀ c ∈ ds, c.isDigit = true)
    (ends : rest.takeWhile Char.isDigit = []) :
    (ds ++ rest).takeWhile Char.isDigit = ds ∧ (ds ++ rest).dropWhile Char.isDigit = rest := by
  rw [List.takeWhile_append_of_pos digits, List.dropWhile_append_of_pos digits, ends,
    List.append_nil]
  refine ⟨rfl, ?_⟩
  have := List.takeWhile_append_dropWhile (p := Char.isDigit) (l := rest)
  rwa [ends, List.nil_append] at this

/-- Reading gets back the exponent that is written. -/
theorem readExponent_exponentText (e : Int) : readExponent? (exponentText e) = some e := by
  have hall : (wholeText e.natAbs).all Char.isDigit = true :=
    List.all_eq_true.mpr fun c => isDigit_of_mem_wholeText
  have hsome : (wholeText e.natAbs).isEmpty = false := by
    simp [wholeText, Nat.toDigits_ne_nil]
  unfold exponentText
  split
  · have hsign : readSign ('-' :: wholeText e.natAbs) = (true, wholeText e.natAbs) := rfl
    simp only [readExponent?, hsign, hall, hsome, wholeValue_wholeText]
    exact congrArg some (by omega)
  · simp only [readExponent?, readSign_wholeText, hall, hsome, wholeValue_wholeText]
    exact congrArg some (by omega)

/-- Reading gets back the decimal that is spelled. -/
theorem read (s : Spelling) : readDecimal? s.text = some s.decimal := by
  obtain ⟨whole, fraction, exponent, nonempty, digits⟩ := s
  have hwhole : ∀ c ∈ whole, c.isDigit = true := fun c h => digits c (List.mem_append_left _ h)
  have hsome : whole.isEmpty = false := by simpa using nonempty
  have hexponent : ((exponent.map fun e => 'e' :: exponentText e).getD []).takeWhile Char.isDigit =
      [] := by
    cases exponent with
    | none => rfl
    | some e => exact List.takeWhile_cons_of_neg (by decide)
  unfold readDecimal? text decimal
  cases fraction with
  | none =>
      obtain ⟨htake, hdrop⟩ := split_digits hwhole hexponent
      simp only [Option.map_none, Option.getD_none, List.nil_append, htake, hdrop]
      cases exponent with
      | none => simp [hsome]
      | some e => simp [hsome, readExponent_exponentText]
  | some others =>
      have hothers : ∀ c ∈ others, c.isDigit = true := fun c h =>
        digits c (List.mem_append_right _ h)
      have hpoint : ('.' :: (others ++ (exponent.map fun e => 'e' :: exponentText e).getD
          [])).takeWhile Char.isDigit = [] := List.takeWhile_cons_of_neg (by decide)
      obtain ⟨htake, hdrop⟩ := split_digits hwhole hpoint
      obtain ⟨htake', hdrop'⟩ := split_digits hothers hexponent
      simp only [Option.map_some, Option.getD_some, htake, hdrop, List.cons_append, htake', hdrop']
      cases exponent with
      | none => simp [hsome]
      | some e => simp [hsome, readExponent_exponentText]

/-- A spelled decimal starts with a digit. -/
theorem exists_text_eq_cons (s : Spelling) : ∃ c cs, s.text = c :: cs ∧ c.isDigit = true := by
  cases hwhole : s.whole with
  | nil => exact absurd hwhole s.nonempty
  | cons c cs =>
      refine ⟨c, _, by rw [text, hwhole, List.cons_append], s.digits c ?_⟩
      rw [hwhole]
      exact List.mem_cons_self ..

theorem readSign_text (s : Spelling) : readSign s.text = (false, s.text) := by
  obtain ⟨c, cs, htext, hdigit⟩ := s.exists_text_eq_cons
  rw [htext]
  exact readSign_of_isDigit cs hdigit

/-- A spelled decimal is not the name of infinity or of a NaN. -/
theorem readMagnitude (s : Spelling) : readMagnitude? s.text = some (nearestTo s.decimal) := by
  have hname : ∀ (letter : Char) {letters : List Char}, letter.isDigit = false →
      String.ofList (s.text.map Char.toLower) ≠ String.ofList (letter :: letters) := by
    obtain ⟨c, cs, htext, hdigit⟩ := s.exists_text_eq_cons
    intro letter letters hletter heq
    rw [String.ofList_inj, htext, List.map_cons, toLower_of_isDigit hdigit] at heq
    cases heq
    rw [hdigit] at hletter
    cases hletter
  have hinf : String.ofList (s.text.map Char.toLower) ≠ "inf" := hname 'i' rfl
  have hinfinity : String.ofList (s.text.map Char.toLower) ≠ "infinity" := hname 'i' rfl
  have hnan : String.ofList (s.text.map Char.toLower) ≠ "nan" := hname 'n' rfl
  simp only [readMagnitude?, hinf, hinfinity, hnan, or_self, if_false, s.read, Option.map_some]

end Spelling

/-! ### Printing spells decimals -/

/-- Bare digits. -/
def Spelling.ofWhole (n : Nat) : Spelling where
  whole := wholeText n
  fraction := none
  exponent := none
  nonempty := Nat.toDigits_ne_nil
  digits := fun c h => isDigit_of_mem_wholeText (by simpa using h)

theorem Spelling.value_ofWhole (n : Nat) : (ofWhole n).decimal.value = n := by
  simp [decimal, ofWhole, Decimal.value]

/-- Positional digits spell the decimal. -/
theorem exists_spelling_positional (d : Decimal) :
    ∃ s : Spelling, positionalText d = s.text ∧ s.decimal.value = d.value := by
  have hdigits : ∀ c ∈ wholeText d.digits, c.isDigit = true := fun c => isDigit_of_mem_wholeText
  have hzeros : ∀ n, ∀ c ∈ zeros n, c.isDigit = true := fun n c => isDigit_of_mem_zeros
  have hlength : (wholeText d.digits).length = length d.digits := rfl
  have hnonempty : wholeText d.digits ≠ [] := Nat.toDigits_ne_nil
  unfold positionalText
  dsimp only
  split
  · rename_i hexponent
    refine ⟨⟨wholeText d.digits ++ zeros d.exponent.toNat, some ['0'], none, by simp [hnonempty],
      ?_⟩, by simp [Spelling.text], ?_⟩
    · intro c hc
      simp only [Option.getD_some, List.mem_append, List.mem_singleton] at hc
      rcases hc with (h | h) | rfl
      · exact hdigits c h
      · exact hzeros _ c h
      · rfl
    · have hzero : wholeValue ['0'] = 0 := rfl
      obtain ⟨k, hk⟩ := Int.eq_ofNat_of_zero_le hexponent
      simp only [Spelling.decimal, Decimal.value, Option.getD_some, Option.getD_none,
        wholeValue_append, wholeValue_wholeText, wholeValue_zeros, length_zeros, hzero, hk,
        Int.toNat_natCast, List.length_singleton]
      push_cast
      rw [zpow_natCast]
      norm_num
      ring
  · rename_i hexponent
    split
    · rename_i hpoint
      rw [Decimal.point] at hpoint ⊢
      have hsplit := List.take_append_drop
        ((length d.digits : Int) + d.exponent).toNat (wholeText d.digits)
      refine ⟨⟨(wholeText d.digits).take ((length d.digits : Int) + d.exponent).toNat,
        some ((wholeText d.digits).drop ((length d.digits : Int) + d.exponent).toNat),
          none, ?_, ?_⟩,
        by simp [Spelling.text], congrArg Decimal.value ?_⟩
      · simp only [ne_eq, List.take_eq_nil_iff, hnonempty, or_false]
        omega
      · simpa only [Option.getD_some, hsplit] using hdigits
      · simp only [Spelling.decimal, Option.getD_some, Option.getD_none, hsplit,
          wholeValue_wholeText, List.length_drop, hlength]
        congr 1
        omega
    · rename_i hpoint
      rw [Decimal.point] at hpoint ⊢
      refine ⟨⟨['0'], some (zeros (-((length d.digits : Int) + d.exponent)).toNat ++
        wholeText d.digits), none, List.cons_ne_nil _ _, ?_⟩, by simp [Spelling.text],
        congrArg Decimal.value ?_⟩
      · intro c hc
        simp only [Option.getD_some, List.mem_append, List.mem_singleton] at hc
        rcases hc with rfl | h | h
        · rfl
        · exact hzeros _ c h
        · exact hdigits c h
      · have hzero : wholeValue ['0'] = 0 := rfl
        simp only [Spelling.decimal, Option.getD_some, Option.getD_none, wholeValue_append,
          wholeValue_wholeText, wholeValue_zeros, hzero, Nat.zero_mul, Nat.zero_add,
          List.length_append, length_zeros, hlength]
        congr 1
        omega

/-- Scientific digits spell the decimal. -/
theorem exists_spelling_scientific (d : Decimal) :
    ∃ s : Spelling, scientificText d = s.text ∧ s.decimal = d := by
  have hdigits : ∀ c ∈ wholeText d.digits, c.isDigit = true := fun c => isDigit_of_mem_wholeText
  have hlength : (wholeText d.digits).length = length d.digits := rfl
  have hvalue := wholeValue_wholeText d.digits
  unfold scientificText
  dsimp only
  cases htext : wholeText d.digits with
  | nil => exact absurd htext Nat.toDigits_ne_nil
  | cons c others =>
      rw [htext] at hdigits hlength hvalue
      rw [List.length_cons] at hlength
      cases others with
      | nil =>
          refine ⟨⟨[c], none, some (d.point - 1), List.cons_ne_nil _ _,
            by simpa using hdigits⟩, rfl,
            ?_⟩
          simp only [Spelling.decimal, Option.getD_some, Option.getD_none, List.append_nil, hvalue,
            Decimal.point, ← hlength]
          congr 1
          simp
      | cons c' others =>
          refine ⟨⟨[c], some (c' :: others), some (d.point - 1), List.cons_ne_nil _ _,
            by simpa using hdigits⟩, rfl, ?_⟩
          simp only [Spelling.decimal, Option.getD_some, List.singleton_append, hvalue,
            Decimal.point, ← hlength]
          congr 1
          omega

theorem exists_spelling_decimal (d : Decimal) :
    ∃ s : Spelling, decimalText d = s.text ∧ s.decimal.value = d.value := by
  unfold decimalText
  split
  · exact exists_spelling_positional d
  · obtain ⟨s, htext, hdecimal⟩ := exists_spelling_scientific d
    exact ⟨s, htext, congrArg Decimal.value hdecimal⟩

/-- A finite magnitude is printed as a decimal that rounds to it. -/
theorem exists_spelling {m : Nat} (finite : m < infinity) :
    ∃ s : Spelling, magnitudeText m = s.text ∧ RoundsTo s.decimal.value m := by
  unfold magnitudeText
  dsimp only
  split
  · rename_i hwhole
    refine ⟨.ofWhole (units m / one), by simp [Spelling.text, Spelling.ofWhole], ?_⟩
    have hvalue : Binary64.value m = (units m / one : Nat) :=
      value_eq_natCast_iff.mpr (Nat.div_mul_cancel (Nat.dvd_of_mod_eq_zero hwhole.1)).symm
    rw [Spelling.value_ofWhole, ← hvalue]
    exact .self finite.le
  · rename_i hwhole
    have hpos : 0 < m := by
      refine Nat.pos_of_ne_zero fun hzero => hwhole ?_
      rw [hzero, units_zero, Nat.zero_mod, Nat.zero_div]
      exact ⟨rfl, powerOfTen_pos _⟩
    obtain ⟨s, htext, hvalue⟩ := exists_spelling_decimal (span m).shortest
    exact ⟨s, htext, hvalue ▸ (contains_shortest hpos).roundsTo finite⟩

/-! ### Doubles -/

/-- The bits of a double are its sign and its magnitude. -/
theorem toNat_eq_sign_add_magnitude (bits : UInt64) :
    (if isNegative bits then signBit + magnitude bits else magnitude bits) = bits.toNat := by
  have hlt := bits.toNat_lt
  have hsign : signBit = 2 ^ 63 := rfl
  simp only [isNegative, magnitude, decide_eq_true_eq]
  split
  · rename_i hle
    rw [hsign] at hle ⊢
    omega
  · rename_i hgt
    rw [hsign] at hgt ⊢
    omega

theorem ofMagnitude_magnitude (bits : UInt64) :
    ofMagnitude (isNegative bits) (magnitude bits) = bits := by
  rw [ofMagnitude, toNat_eq_sign_add_magnitude, UInt64.ofNat_toNat]

/-- A finite double is printed with its sign before its magnitude. -/
theorem textOfBits_finite {bits : UInt64} (finite : magnitude bits < infinity) :
    textOfBits bits = String.ofList ((if isNegative bits then ['-'] else []) ++
      magnitudeText (magnitude bits)) := by
  unfold textOfBits
  dsimp only
  rw [if_neg (Nat.not_lt.mpr finite.le), if_neg finite.ne]
  cases isNegative bits with
  | true => rw [if_pos rfl, if_pos rfl, List.singleton_append]
  | false => rw [if_neg Bool.false_ne_true, if_neg Bool.false_ne_true, List.nil_append]

/-- The text of a finite double is its sign and a decimal that rounds to its magnitude. -/
theorem exists_spelling_textOfBits {bits : UInt64} (finite : magnitude bits < infinity) :
    ∃ s : Spelling, readSign (textOfBits bits).toList = (isNegative bits, s.text) ∧
      RoundsTo s.decimal.value (magnitude bits) := by
  obtain ⟨s, htext, hrounds⟩ := exists_spelling finite
  refine ⟨s, ?_, hrounds⟩
  rw [textOfBits_finite finite, String.toList_ofList, htext]
  cases isNegative bits with
  | true => rfl
  | false => exact s.readSign_text

/-- Reading the text of a finite double gives its bits. -/
theorem bitsOfText_textOfBits {bits : UInt64} (finite : magnitude bits < infinity) :
    bitsOfText? (textOfBits bits) = some bits := by
  obtain ⟨s, hsign, hrounds⟩ := exists_spelling_textOfBits finite
  have hnearest : nearestTo s.decimal = magnitude bits :=
    (nearestTo_roundsTo s.decimal).unique hrounds
  simp only [bitsOfText?, hsign, s.readMagnitude, Option.map_some, hnearest, ofMagnitude_magnitude]

/-- A finite double that is a whole number below the limit is printed as bare digits. -/
theorem textOfBits_whole {bits : UInt64} (finite : magnitude bits < infinity) {n : Nat}
    (whole : Binary64.value (magnitude bits) = n) (small : n < powerOfTen layout.wholeDigits) :
    textOfBits bits = (if isNegative bits then "-" else "") ++ toString n := by
  have hunits := value_eq_natCast_iff.mp whole
  have hquotient : units (magnitude bits) / one = n := by
    rw [hunits, Nat.mul_div_cancel _ Binary64.one_pos]
  have hdigits : magnitudeText (magnitude bits) = Nat.toDigits 10 n := by
    unfold magnitudeText
    dsimp only
    rw [hquotient, if_pos ⟨by rw [hunits, Nat.mul_mod_left], small⟩, wholeText]
  rw [textOfBits_finite finite, hdigits, Nat.toString_eq_ofList_toDigits, String.ofList_append]
  cases isNegative bits <;> rfl

/-- Printed numbers read back. The text of a finite double has the sign of the double, zero
included, and then a decimal that rounds to its magnitude. So reading the text gives the bits of the
double, and no other finite double has the same text. A whole number below `10 ^ 15` is printed as
bare digits. -/
theorem text_reads_back {bits : UInt64} (finite : magnitude bits < infinity) :
    (∃ cs d, readSign (textOfBits bits).toList = (isNegative bits, cs) ∧
      readDecimal? cs = some d ∧ RoundsTo d.value (magnitude bits)) ∧
    bitsOfText? (textOfBits bits) = some bits ∧
    (∀ other, magnitude other < infinity → textOfBits other = textOfBits bits → other = bits) ∧
    ∀ n : Nat, Binary64.value (magnitude bits) = n → n < 10 ^ 15 →
      textOfBits bits = (if isNegative bits then "-" else "") ++ toString n := by
  refine ⟨?_, bitsOfText_textOfBits finite, fun other hother hsame => ?_, fun n hwhole hsmall =>
    textOfBits_whole finite hwhole hsmall⟩
  · obtain ⟨s, hsign, hrounds⟩ := exists_spelling_textOfBits finite
    exact ⟨s.text, s.decimal, hsign, s.read, hrounds⟩
  · have hread := bitsOfText_textOfBits hother
    rw [hsame, bitsOfText_textOfBits finite] at hread
    injection hread with heq
    exact heq.symm

/-- The sum of `0.1` and `0.2`, which needs all seventeen digits. -/
theorem text_reads_back_sum :
    textOfBits 0x3FD3333333333334 = "0.30000000000000004" ∧
    magnitude 0x3FD3333333333334 < infinity ∧
    (∃ cs d, readSign (textOfBits 0x3FD3333333333334).toList =
      (isNegative 0x3FD3333333333334, cs) ∧
      readDecimal? cs = some d ∧ RoundsTo d.value (magnitude 0x3FD3333333333334)) ∧
    bitsOfText? (textOfBits 0x3FD3333333333334) = some 0x3FD3333333333334 ∧
    (∀ other, magnitude other < infinity →
      textOfBits other = textOfBits 0x3FD3333333333334 → other = 0x3FD3333333333334) ∧
    ∀ n : Nat, Binary64.value (magnitude 0x3FD3333333333334) = n → n < 10 ^ 15 →
      textOfBits 0x3FD3333333333334 =
        (if isNegative 0x3FD3333333333334 then "-" else "") ++ toString n := by
  have finite : magnitude 0x3FD3333333333334 < infinity := by decide +kernel
  exact ⟨by decide +kernel, finite, text_reads_back finite⟩

end Lox.Number
