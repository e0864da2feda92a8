import MinerWatch.Proofs.Decimal.Truncation
import MinerWatch.Proofs.Series.Archive
/-!
What a stored cursor is read as.

A word is read exactly. Any other numeral is rounded to double precision before its fraction is
dropped, and what is too large for a word becomes the largest one. So the cursor is the
whole part of what the text denotes unless the rounding or the clamping shows in it (`Misread`),
which it never does for a numeral of few digits below `2 ^ 53`.
-/

namespace MinerWatch

open Decimal

/-- The whole part of a number, if it is one of 64 bits. -/
def whole? (v : ℚ) : Option Nat :=
  if 0 ≤ v ∧ v < 2 ^ 64 then some ⌊v⌋₊ else none

/-- That a numeral is rounded to `x` shows in the instant that it is read as. -/
inductive Misread (n : Numeral) (x : ℚ) : Prop
  /-- A negative number is too small for a float, and is read as zero. -/
  | vanished (negative : n.negative = true) (nonzero : n.rat ≠ 0) (zero : x = 0)
  /-- The whole part is another one. -/
  | moved (positive : n.negative = false) (word : n.rat < 2 ^ 64)
      (other : min ⌊x⌋₊ (2 ^ 64 - 1) ≠ ⌊n.rat⌋₊)
  /-- The number is too large for a word, and is read as the largest one. -/
  | clamped (positive : n.negative = false) (large : 2 ^ 64 ≤ n.rat) (finite : x < 2 ^ 1024)

/-- What a text is read as where an instant is expected. -/
structure ReadsAs (text : List Char) (instant : Option Nat) : Prop where
  /-- Only numerals are read. -/
  nothing : numeral? text = none → instant = none
  /-- Digits whose number has 64 bits are read exactly. -/
  word : ∀ ds, Plain text ds → value ds < 2 ^ 64 → instant = some (value ds)
  /-- Any other numeral is rounded to double precision, to one number only (`RoundsTo.unique`), and
  then cut. What is left is the whole part of what it denotes, unless the rounding shows. -/
  numeral : ∀ n, numeral? text = some n → (∀ ds, Plain text ds → 2 ^ 64 ≤ value ds) →
    ∃ x, RoundsTo n.rat x ∧ instant = cut? (if n.negative then -x else x) ∧
      (instant = whole? n.signed ↔ ¬ Misread n x)
  /-- Below `2 ^ 53` the rounding reaches at most the next instant. -/
  next : ∀ n, numeral? text = some n → n.negative = false → n.rat < 2 ^ 53 →
    instant = some ⌊n.rat⌋₊ ∨ instant = some (⌊n.rat⌋₊ + 1) ∧ RoundsTo n.rat (⌊n.rat⌋₊ + 1)
  /-- Below `2 ^ 53` a numeral with few digits is cut to its whole part. -/
  few : ∀ n, numeral? text = some n → n.negative = false → n.rat < 2 ^ 53 →
    value (n.whole ++ n.fraction) < 2 ^ 53 → instant = some ⌊n.rat⌋₊

namespace Archive

variable {n : Numeral} {v x : ℚ}

theorem rat_nonneg (n : Numeral) : 0 ≤ n.rat := by
  unfold Numeral.rat
  positivity

theorem cut?_of_nonneg (nonneg : 0 ≤ x) :
    cut? x = if x < 2 ^ 1024 then some (min ⌊x⌋₊ (2 ^ 64 - 1)) else none := by
  simp only [cut?, nonneg, true_and]

theorem whole?_of_nonneg (nonneg : 0 ≤ v) : whole? v = if v < 2 ^ 64 then some ⌊v⌋₊ else none := by
  simp only [whole?, nonneg, true_and]

theorem whole?_of_neg (neg : v < 0) : whole? v = none :=
  if_neg fun h => absurd h.1 (not_le.mpr neg)

/-- Rounding does not take a word out of reach. -/
theorem lt_limit_of_rounds (rounds : RoundsTo v x) (word : v < 2 ^ 64) : x < 2 ^ 1024 :=
  (rounds.ge_of_ge (isDouble_two_pow 64) word.le).trans_lt
    (pow_lt_pow_right₀ (by norm_num) (by decide))

/-- A negative number is read only if it is rounded to zero. -/
theorem cut?_neg_eq_whole?_neg_iff (nonneg : 0 ≤ v) (rounds : RoundsTo v x) :
    cut? (-x) = whole? (-v) ↔ ¬ (v ≠ 0 ∧ x = 0) := by
  have zeroCut : cut? (-0) = some 0 := by simp [cut?]
  have zeroWhole : whole? (-0) = some 0 := by simp [whole?]
  rcases nonneg.eq_or_lt with rfl | pos
  · have zero : x = 0 := le_antisymm
      (by exact_mod_cast rounds.ge_of_ge (isDouble_natCast (Nat.zero_le _)) (le_refl _)) rounds.nonneg
    rw [zero, zeroCut, zeroWhole]
    simp
  · have none : whole? (-v) = none := whole?_of_neg (neg_neg_of_pos pos)
    rw [none]
    rcases rounds.nonneg.eq_or_lt with rfl | filled
    · rw [zeroCut]
      simp [pos.ne']
    · rw [cut?_of_neg (neg_neg_of_pos filled)]
      simp [filled.ne']

/-- What is left of a number after rounding is its whole part unless that moved or is clamped. -/
theorem cut?_eq_whole?_iff_of_nonneg (nonneg : 0 ≤ v) (rounds : RoundsTo v x) :
    cut? x = whole? v ↔
      (v < 2 ^ 64 → min ⌊x⌋₊ (2 ^ 64 - 1) = ⌊v⌋₊) ∧ (2 ^ 64 ≤ v → ¬ x < 2 ^ 1024) := by
  rw [cut?_of_nonneg rounds.nonneg, whole?_of_nonneg nonneg]
  rcases lt_or_ge v (2 ^ 64) with word | large
  · simp [word, not_le.mpr word, lt_limit_of_rounds rounds word]
  · simp [not_lt.mpr large, large]

theorem cut?_eq_whole?_iff (rounds : RoundsTo n.rat x) :
    cut? (if n.negative then -x else x) = whole? n.signed ↔ ¬ Misread n x := by
  have nonneg := rat_nonneg n
  rw [Numeral.signed]
  cases sign : n.negative with
  | true =>
      have negative : n.negative ≠ false := by simp [sign]
      rw [if_pos rfl, if_pos rfl, cut?_neg_eq_whole?_neg_iff nonneg rounds, not_iff_not]
      constructor
      · rintro ⟨nonzero, zero⟩
        exact .vanished sign nonzero zero
      · rintro (⟨-, nonzero, zero⟩ | ⟨positive, -, -⟩ | ⟨positive, -, -⟩)
        · exact ⟨nonzero, zero⟩
        · exact absurd positive negative
        · exact absurd positive negative
  | false =>
      rw [if_neg Bool.false_ne_true, if_neg Bool.false_ne_true,
        cut?_eq_whole?_iff_of_nonneg nonneg rounds]
      constructor
      · rintro ⟨unmoved, unclamped⟩ (⟨negative, -, -⟩ | ⟨-, word, other⟩ | ⟨-, large, finite⟩)
        · exact absurd (sign.symm.trans negative) Bool.false_ne_true
        · exact other (unmoved word)
        · exact unclamped large finite
      · intro exact_
        refine ⟨fun word => ?_, fun large finite => exact_ (.clamped sign large finite)⟩
        by_contra other
        exact exact_ (.moved sign word other)

/-! ### Texts -/

theorem readCursor?_of_word {raw : String} {w : UInt64}
    (word : readWord? (Text.trim raw.toList) = some w) : readCursor? raw = some w := by
  simp only [readCursor?, word]

theorem readCursor?_of_no_word {raw : String} (h : readWord? (Text.trim raw.toList) = none) :
    readCursor? raw = (readFloat? (Text.trim raw.toList)).bind word? := by
  simp only [readCursor?, h]
  cases readFloat? (Text.trim raw.toList) <;> rfl

/-- A text that is no numeral is no cursor. -/
theorem readCursor?_of_no_numeral {raw : String} (h : numeral? (Text.trim raw.toList) = none) :
    readCursor? raw = none := by
  have noWord : readWord? (Text.trim raw.toList) = none :=
    readWord?_eq_none fun ds plain => absurd ((numeral?_of_plain plain).symm.trans h) (by simp)
  rw [readCursor?_of_no_word noWord]
  refine Option.bind_eq_none_iff.mpr fun x read => ?_
  have infinite := isFinite_of_readFloat? h x read
  rw [word?, Option.filter_some, infinite, Bool.false_and]
  rfl

/-- A numeral that is no word is rounded and cut. -/
theorem readCursor?_of_numeral {raw : String} (h : numeral? (Text.trim raw.toList) = some n)
    (noWord : ∀ ds, Plain (Text.trim raw.toList) ds → 2 ^ 64 ≤ value ds) (rounds : RoundsTo n.rat x) :
    (readCursor? raw).map UInt64.toNat = cut? (if n.negative then -x else x) := by
  rw [readCursor?_of_no_word (readWord?_eq_none noWord), readFloat?_of_numeral h, Option.bind_some,
    word?_toFloat rounds]

theorem rat_of_plain {ds : List Digit} : (Numeral.mk false ds [] none).rat = value ds := by
  simp [Numeral.rat, Numeral.power]

/-- Below `2 ^ 53` a numeral is read as the whole part of what it is rounded to. -/
theorem readCursor?_of_small {raw : String} (h : numeral? (Text.trim raw.toList) = some n)
    (positive : n.negative = false) (small : n.rat < 2 ^ 53) (rounds : RoundsTo n.rat x) :
    (readCursor? raw).map UInt64.toNat = some ⌊x⌋₊ := by
  by_cases plain : ∃ ds, Plain (Text.trim raw.toList) ds
  · -- Rounding leaves a short word as it is.
    obtain ⟨ds, plain⟩ := plain
    obtain rfl := Option.some.inj (h.symm.trans (numeral?_of_plain plain))
    rw [rat_of_plain] at small rounds
    have short : value ds < 2 ^ 53 := by exact_mod_cast small
    rw [rounds.eq_self (isDouble_natCast short.le), Nat.floor_natCast,
      readCursor?_of_word (readWord?_of_plain plain (short.trans (by decide))), Option.map_some]
    exact congrArg some (Nat.mod_eq_of_lt (short.trans (by decide)))
  · have rounded := readCursor?_of_numeral h (fun ds given => absurd ⟨ds, given⟩ plain) rounds
    have top : x ≤ 2 ^ 53 := rounds.ge_of_ge (isDouble_two_pow 53) small.le
    have whole : ⌊x⌋₊ ≤ 2 ^ 53 := Nat.floor_le_of_le (by exact_mod_cast top)
    have finite := lt_limit_of_rounds rounds (small.trans (by norm_num))
    rw [rounded, if_neg (by simp [positive]), cut?_of_nonneg rounds.nonneg, if_pos finite,
      min_eq_left (whole.trans (by decide))]

theorem readsAs_readCursor? (raw : String) :
    ReadsAs (Text.trim raw.toList) ((readCursor? raw).map UInt64.toNat) where
  nothing h := by rw [readCursor?_of_no_numeral h, Option.map_none]
  word ds plain fits := by
    rw [readCursor?_of_word (readWord?_of_plain plain fits), Option.map_some]
    exact congrArg some (Nat.mod_eq_of_lt fits)
  numeral n h noWord := by
    obtain ⟨x, rounds⟩ := exists_roundsTo n.rat
    have cut := readCursor?_of_numeral h noWord rounds
    exact ⟨x, rounds, cut, cut ▸ cut?_eq_whole?_iff rounds⟩
  next n h positive small := by
    obtain ⟨x, rounds⟩ := exists_roundsTo n.rat
    rw [readCursor?_of_small h positive small rounds]
    rcases rounds.floor_eq_or (rat_nonneg n) small with kept | carried
    · exact .inl (congrArg some kept)
    · subst carried
      refine .inr ⟨congrArg some ?_, rounds⟩
      exact_mod_cast Nat.floor_natCast (⌊n.rat⌋₊ + 1)
  few n h positive small digits := by
    obtain ⟨x, rounds⟩ := exists_roundsTo n.rat
    rw [readCursor?_of_small h positive small rounds]
    exact congrArg some (rounds.floor_eq_of_digits digits small)

variable {keys : ArchiveKeys} {store : Store} {raw : String}

/-- **A stored cursor is the whole part of the number that its text denotes, unless rounding to double
precision shows in it.** Words and texts that are no numerals are never misread, numerals of few
digits below `2 ^ 53` neither. -/
theorem cursor_is_exact_unless_misread (stored : store.read? keys.cursor = some raw) :
    ReadsAs (Text.trim raw.toList) ((load keys store).value.cursor.map UInt64.toNat) := by
  have cursor : (load keys store).value.cursor = readCursor? raw := by
    rw [value_load, stored]
    rfl
  rw [cursor]
  exact readsAs_readCursor? raw

/-- A store with nothing but a cursor in it. -/
def holdingText (raw : String) : Store :=
  { entries := [("lastTimestamp", raw)] }

/-- The numeral 1700000000000.999. -/
def fraction : Numeral :=
  ⟨false, [1, 7, 0, 0, 0, 0, 0, 0, 0, 0, 0, 0, 0], [9, 9, 9], none⟩

/-- A fraction is dropped, however close the next instant is. -/
theorem cursor_of_fraction :
    numeral? (Text.trim " 1700000000000.999\n".toList) = some fraction ∧
      (load {} (holdingText " 1700000000000.999\n")).value.cursor.map UInt64.toNat =
        some 1700000000000 := by
  have stored : (holdingText " 1700000000000.999\n").read? "lastTimestamp" =
      some " 1700000000000.999\n" := by decide
  have numeral : numeral? (Text.trim " 1700000000000.999\n".toList) = some fraction := by decide
  have few : value (fraction.whole ++ fraction.fraction) < 2 ^ 53 := by decide
  have rat : fraction.rat = 1700000000000 + 999 / 1000 := by
    norm_num [fraction, Numeral.rat, Numeral.power, value]
  have small : fraction.rat < 2 ^ 53 := by
    rw [rat]
    norm_num
  have whole : ⌊fraction.rat⌋₊ = 1700000000000 := by
    rw [rat, Nat.floor_eq_iff (by norm_num)]
    norm_num
  have read : ReadsAs (Text.trim " 1700000000000.999\n".toList)
      ((load {} (holdingText " 1700000000000.999\n")).value.cursor.map UInt64.toNat) :=
    cursor_is_exact_unless_misread stored
  exact ⟨numeral, whole ▸ read.few fraction numeral rfl small few⟩

/-- What a text denotes as an instant. -/
def denoted (raw : String) : Option Nat :=
  (numeral? (Text.trim raw.toList)).bind fun n => whole? n.signed

/-- Too large a number becomes the largest word, and a long fraction the next instant. -/
theorem texts_are_misread :
    (load {} (holdingText "18446744073709551616")).value.cursor = some 18446744073709551615 ∧
      denoted "18446744073709551616" = none ∧
      (load {} (holdingText "1010.99999999999999999")).value.cursor = some 1011 ∧
      denoted "1010.99999999999999999" = some 1010 := by
  refine ⟨?_, ?_, ?_, ?_⟩ <;> decide +kernel

end Archive

end MinerWatch
