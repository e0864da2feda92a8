import MinerWatch.Decimal.Style
import MinerWatch.Proofs.Decimal.Scaling
/-!
Every finite float that was written is read back as a finite float.

Reading may round three times, so a float next to the largest one might be read as
infinity. It is not. The shortest decimal of a float lies within half a unit of it, and
three roundings stay below the limit from there for all but the six largest floats
(`upper_lt_limit`); those are read by computation (`isFinite_scaledSize_largest`).
-/

namespace MinerWatch.Decimal

open Float.Model Float.Model.UnpackedFloat

/-! ### Gathering digits -/

/-- The number that digits denote after a prefix that denotes `n`. -/
def valueFrom (n : Nat) (ds : List Digit) : Nat :=
  ds.foldl (fun n d => 10 * n + d.val) n

theorem value_append (ds es : List Digit) : value (ds ++ es) = valueFrom (value ds) es :=
  List.foldl_append ..

theorem le_valueFrom (n : Nat) (ds : List Digit) : n * 10 ^ ds.length ≤ valueFrom n ds := by
  induction ds generalizing n with
  | nil => simp [valueFrom]
  | cons d ds ih =>
      refine Nat.le_trans ?_ (ih (10 * n + d.val))
      rw [List.length_cons, Nat.pow_succ', ← Nat.mul_assoc]
      exact Nat.mul_le_mul_right _ (by omega)

theorem concat_lt {n k : Nat} (h : n < 10 ^ k) (d : Digit) : 10 * n + d.val < 10 ^ (k + 1) := by
  have digit := d.isLt
  rw [Nat.pow_succ]
  omega

theorem valueFrom_lt {n k : Nat} (h : n < 10 ^ k) (ds : List Digit) :
    valueFrom n ds < 10 ^ (k + ds.length) := by
  induction ds generalizing n k with
  | nil => exact h
  | cons d ds ih =>
      have next := concat_lt h d
      rw [List.length_cons, Nat.add_comm ds.length, ← Nat.add_assoc]
      exact ih next

theorem le_valueFrom_self (n : Nat) (ds : List Digit) : n ≤ valueFrom n ds :=
  Nat.le_trans (Nat.le_mul_of_pos_right n (Nat.pow_pos (by decide))) (le_valueFrom n ds)

/-- Whole digits that make up a word are all gathered. -/
theorem gatherWhole_of_lt {n : Nat} {ds : List Digit} (word : valueFrom n ds < UInt64.size) :
    gatherWhole n ds = (valueFrom n ds, 0) := by
  induction ds generalizing n with
  | nil => rfl
  | cons d ds ih =>
      have fit : fits n d = true :=
        decide_eq_true (Nat.lt_of_le_of_lt (le_valueFrom_self _ ds) word)
      rw [gatherWhole, if_pos fit]
      exact ih word

/-- Fraction digits that make up a word with what is before them are all gathered. -/
theorem gatherFraction_of_lt {n : Nat} {ds : List Digit} (word : valueFrom n ds < UInt64.size) :
    gatherFraction n ds = (valueFrom n ds, ds.length) := by
  induction ds generalizing n with
  | nil => rfl
  | cons d ds ih =>
      have fit : fits n d = true :=
        decide_eq_true (Nat.lt_of_le_of_lt (le_valueFrom_self _ ds) word)
      rw [gatherFraction, if_pos fit, ih word]
      rfl

/-- Fraction digits that are left out only make the number smaller. -/
theorem gatherFraction_spec {n : Nat} (word : n < UInt64.size) (ds : List Digit) :
    (gatherFraction n ds).1 < UInt64.size ∧ (gatherFraction n ds).2 ≤ ds.length ∧
      (gatherFraction n ds).1 * 10 ^ (ds.length - (gatherFraction n ds).2) ≤ valueFrom n ds := by
  induction ds generalizing n with
  | nil => exact ⟨word, Nat.le_refl 0, by simp [gatherFraction, valueFrom]⟩
  | cons d ds ih =>
      rw [gatherFraction]
      split
      · rename_i fit
        obtain ⟨small, taken, le⟩ := ih (of_decide_eq_true fit)
        refine ⟨small, by simpa using taken, ?_⟩
        rw [List.length_cons, Nat.add_sub_add_right]
        exact le
      · exact ⟨word, Nat.zero_le _, le_valueFrom n (d :: ds)⟩

/-! ### Reading -/

theorem isFinite_of_between {low : Int} {high : ℚ} {x : Float} (h : Between low high x) :
    x.isFinite = true := by
  obtain ⟨s, m, e, pos, eq, -⟩ := h
  show x.toModel.unpack.isFinite = true
  rw [eq]
  rfl

theorem isFinite_toFloat {n : Nat} (word : n < UInt64.size) : n.toUInt64.toFloat.isFinite = true := by
  rcases Nat.eq_zero_or_pos n with rfl | pos
  · exact isFinite_zero
  · exact isFinite_of_between (between_toFloat pos word)

theorem clampWord_nonneg {e : Int} (up : 0 ≤ clampWord e) : clampWord e ≤ e := by
  unfold clampWord at *
  omega

/-- A word does not overflow by itself. -/
theorem word_lt_limit {n : Nat} (word : n < UInt64.size) : n * slack ^ 3 < limit := by
  have small : (n : ℚ) ≤ 10 ^ 20 := by
    have le : n ≤ 10 ^ 20 := Nat.le_trans (Nat.le_of_lt word) (by decide)
    exact_mod_cast le
  have cube : slack ^ 3 ≤ 10 := by
    unfold slack
    norm_num
  have product : (n : ℚ) * slack ^ 3 ≤ 10 ^ 21 := by
    calc (n : ℚ) * slack ^ 3 ≤ 10 ^ 20 * 10 :=
          mul_le_mul small cube (pow_nonneg slack_pos.le 3) (by norm_num)
      _ = 10 ^ 21 := by norm_num
  have power : (10 : ℚ) ^ 21 ≤ 10 ^ 308 := pow_le_pow_right₀ (by norm_num) (by decide)
  have grown : (10 : ℚ) ^ 308 ≤ 10 ^ 308 * slack :=
    le_mul_of_one_le_right (pow_nonneg (by norm_num) 308) one_le_slack
  exact ((product.trans power).trans grown).trans_lt ten_pow_lt_limit

/-- What is made of a word that stands for the digits of a numeral, `taken` of them of its fraction. -/
def Numeral.scaledWord (n : Numeral) (w taken : Nat) : Float :=
  match n.exponent with
  | none => scaleBy w.toUInt64.toFloat (-taken)
  | some e =>
    if value e.digits ≤ 2147483647 then scaleBy w.toUInt64.toFloat (clampWord (-taken + e.toInt))
    else if e.negative || w = 0 then 0.0
    else infinity

theorem scaledSize_of_gathered {n : Numeral} {w taken : Nat}
    (whole : gatherWhole 0 n.whole = (value n.whole, 0))
    (fraction : gatherFraction (value n.whole) n.fraction = (w, taken)) :
    n.scaledSize = n.scaledWord w taken := by
  have start : ((0 : Nat) : Int) - taken = -taken := by omega
  cases exponent : n.exponent <;>
    simp only [Numeral.scaledSize, Numeral.scaledWord, whole, fraction, start, exponent]

/-- A numeral with few whole digits is read as a word that does not exceed the digits, scaled. -/
theorem exists_scaledSize_eq {n : Numeral} (short : n.whole.length ≤ 19) :
    ∃ w taken : Nat, w < UInt64.size ∧ taken ≤ n.fraction.length ∧
      w * 10 ^ (n.fraction.length - taken) ≤ value (n.whole ++ n.fraction) ∧
      n.scaledSize = n.scaledWord w taken := by
  have word : value n.whole < UInt64.size := by
    have lt := valueFrom_lt (n := 0) (k := 0) (by decide) n.whole
    have le : 10 ^ (0 + n.whole.length) ≤ 10 ^ 19 := Nat.pow_le_pow_right (by decide) (by omega)
    have size : 10 ^ 19 < UInt64.size := by decide
    exact Nat.lt_trans (Nat.lt_of_lt_of_le lt le) size
  obtain ⟨small, taken, le⟩ := gatherFraction_spec word n.fraction
  exact ⟨_, _, small, taken, value_append _ _ ▸ le, scaledSize_of_gathered (gatherWhole_of_lt word) rfl⟩

/-- Without an exponent nothing is scaled up. -/
theorem isFinite_scaledSize_plain {n : Numeral} (short : n.whole.length ≤ 19)
    (plain : n.exponent = none) : n.scaledSize.isFinite = true := by
  obtain ⟨w, taken, word, -, -, eq⟩ := exists_scaledSize_eq short
  rw [eq, Numeral.scaledWord, plain]
  rcases Nat.eq_zero_or_pos taken with rfl | down
  · refine isFinite_scaleBy_of_lt word (Int.le_refl 0) ?_
    simpa using word_lt_limit word
  · exact isFinite_scaleBy_of_neg (isFinite_toFloat word) (by omega)

/-- With an exponent it depends on the number that is denoted. -/
theorem isFinite_scaledSize_scientific {n : Numeral} {e : Exponent} (short : n.whole.length ≤ 19)
    (written : n.exponent = some e) (near : e.negative = false → value e.digits ≤ 2147483647)
    (size : value (n.whole ++ n.fraction) * (10 : ℚ) ^ (e.toInt - n.fraction.length) * slack ^ 3 < limit) :
    n.scaledSize.isFinite = true := by
  obtain ⟨w, taken, word, le_length, le, eq⟩ := exists_scaledSize_eq short
  rw [eq, Numeral.scaledWord, written]
  dsimp only
  split
  · rcases Int.lt_or_le (clampWord (-taken + e.toInt)) 0 with down | up
    · exact isFinite_scaleBy_of_neg (isFinite_toFloat word) down
    · refine isFinite_scaleBy_of_lt word up (lt_of_le_of_lt ?_ size)
      refine mul_le_mul_of_nonneg_right ?_ (pow_nonneg slack_pos.le 3)
      have clamped := clampWord_nonneg up
      -- The digits left out are made up for by the power of ten, which counts them.
      calc (w : ℚ) * 10 ^ (clampWord (-taken + e.toInt)).toNat
          = w * 10 ^ clampWord (-taken + e.toInt) := by
            rw [← zpow_natCast, Int.toNat_of_nonneg up]
        _ ≤ w * 10 ^ (((n.fraction.length - taken : Nat) : Int) + (e.toInt - n.fraction.length)) := by
            refine mul_le_mul_of_nonneg_left (zpow_le_zpow_right₀ (by norm_num) ?_) (Nat.cast_nonneg w)
            omega
        _ = (w * 10 ^ (n.fraction.length - taken) : Nat) * 10 ^ (e.toInt - n.fraction.length) := by
            rw [zpow_add₀ (by norm_num), zpow_natCast]
            push_cast
            ring
        _ ≤ value (n.whole ++ n.fraction) * 10 ^ (e.toInt - n.fraction.length) :=
            mul_le_mul_of_nonneg_right (by exact_mod_cast le) (by positivity)
  · rename_i far
    have negative : e.negative = true := by
      by_contra positive
      exact far (near (Bool.eq_false_iff.mpr positive))
    rw [negative, Bool.true_or, if_pos rfl]
    decide

/-! ### The shortest decimal -/

/-- The number that a decimal denotes. -/
def Scaled.rat (d : Scaled) : ℚ := d.coefficient * 10 ^ d.exponent

theorem zpow_eq_div {x : ℚ} (pos : 0 < x) (i : Int) : x ^ i = x ^ i.toNat / x ^ (-i).toNat := by
  rw [← zpow_natCast, ← zpow_natCast, ← zpow_sub₀ pos.ne']
  congr 1
  omega

theorem compareScaled_eq (a b : Nat) (i j : Int) :
    compareScaled a i b j = compare ((a : ℚ) * 10 ^ i) (b * 2 ^ j) := by
  -- Both sides are compared as naturals, over a common denominator.
  have common : StrictMono fun n : Nat => (n : ℚ) / (2 ^ (-j).toNat * 10 ^ (-i).toNat) := by
    intro m n lt
    refine div_lt_div_of_pos_right ?_ (by positivity)
    exact_mod_cast lt
  have left : (a : ℚ) * 10 ^ i =
      (scaleUp 2 (scaleUp 10 a i) (-j) : Nat) / (2 ^ (-j).toNat * 10 ^ (-i).toNat) := by
    rw [zpow_eq_div (by norm_num)]
    simp only [scaleUp, Nat.pow_eq, Nat.cast_mul, Nat.cast_pow, Nat.cast_ofNat]
    field_simp
  have right : (b : ℚ) * 2 ^ j =
      (scaleUp 10 (scaleUp 2 b j) (-i) : Nat) / (2 ^ (-j).toNat * 10 ^ (-i).toNat) := by
    rw [zpow_eq_div (by norm_num)]
    simp only [scaleUp, Nat.pow_eq, Nat.cast_mul, Nat.cast_pow, Nat.cast_ofNat]
    field_simp
  rw [left, right, ← cmp_eq_compare]
  exact ((cmp_eq_compare _ _).trans rfl).symm.trans (common.cmp_map_eq _ _).symm

/-- A decimal that identifies a float is not zero and lies in the float's interval. -/
structure Identifies (d : Scaled) (x : Binary) : Prop where
  nonzero : d.coefficient ≠ 0
  contains : x.Contains d.rat

theorem Binary.lower_pos {x : Binary} (pos : 0 < x.significand) : 0 < x.lower := by
  rw [lower_eq pos]
  have one : (1 : ℚ) ≤ x.significand := by exact_mod_cast pos
  refine mul_pos ?_ (by positivity)
  split <;> linarith

theorem identifies_of_contains {x : Binary} {d : Scaled} (pos : 0 < x.significand)
    (h : x.Contains d.rat) : Identifies d x := by
  refine ⟨fun zero => ?_, h⟩
  have positive := (Binary.lower_pos pos).trans_le h.ge
  rw [Scaled.rat, zero, Nat.cast_zero, zero_mul] at positive
  exact lt_irrefl _ positive

theorem identifies_of_holds {x : Binary} {d : Scaled} (pos : 0 < x.significand)
    (h : x.holds d = true) : Identifies d x := by
  simp only [Binary.holds, compareScaled_eq, Bool.and_eq_true, Bool.or_eq_true,
    decide_eq_true_eq, compare_lt_iff_lt, compare_gt_iff_gt, compare_eq_iff_eq] at h
  apply identifies_of_contains pos
  obtain ⟨low, high⟩ := h
  refine ⟨?_, ?_, fun odd => ⟨?_, ?_⟩⟩
  · exact low.elim le_of_lt fun edge => edge.2.ge
  · exact high.elim le_of_lt fun edge => edge.2.le
  · exact low.elim id fun edge => absurd edge.1 (by omega)
  · exact high.elim id fun edge => absurd edge.1 (by omega)

theorem holds_of_onGrid? {x : Binary} {tie : Tie} {grid : Int} {d : Scaled}
    (h : x.onGrid? tie grid = some d) : x.holds d = true := by
  -- Whichever neighbour is taken, the branch that takes it has tested it.
  simp only [Binary.onGrid?] at h
  split at h
  · exact absurd h (by simp)
  · obtain rfl := Option.some.inj h
    assumption
  · obtain rfl := Option.some.inj h
    assumption
  · split at h
    · obtain rfl := Option.some.inj h
      assumption
    · obtain rfl := Option.some.inj h
      assumption
    · obtain rfl := Option.some.inj h
      assumption
    · obtain rfl := Option.some.inj h
      split <;> assumption

theorem rat_exact (x : Binary) : x.exact.rat = dyadic x.significand x.exponent := by
  unfold Binary.exact
  split
  · rename_i up
    show ((x.significand * 2 ^ x.exponent.toNat : Nat) : ℚ) * 10 ^ (0 : Int) = _
    rw [dyadic, zpow_zero, mul_one, Nat.cast_mul, Nat.cast_pow, ← zpow_natCast,
      Int.toNat_of_nonneg up]
    rfl
  · rename_i down
    show ((x.significand * 5 ^ (-x.exponent).toNat : Nat) : ℚ) * 10 ^ x.exponent = _
    have fives : (5 : ℚ) ^ (-x.exponent).toNat * 5 ^ x.exponent = 1 := by
      rw [← zpow_natCast, Int.toNat_of_nonneg (by omega), ← zpow_add₀ (by norm_num),
        Int.add_left_neg, zpow_zero]
    have tens : (10 : ℚ) ^ x.exponent = 5 ^ x.exponent * 2 ^ x.exponent := by
      rw [← mul_zpow]
      norm_num
    rw [tens, dyadic]
    push_cast
    linear_combination (x.significand : ℚ) * 2 ^ x.exponent * fives

theorem identifies_exact {x : Binary} (pos : 0 < x.significand) : Identifies x.exact x := by
  apply identifies_of_contains pos
  rw [rat_exact]
  exact Binary.contains_self pos

theorem identifies_strip {x : Binary} {d : Scaled} (h : Identifies d x) (fuel : Nat) :
    Identifies (d.strip fuel) x := by
  induction fuel generalizing d with
  | zero => exact h
  | succ fuel ih =>
      rw [Scaled.strip]
      split
      · rename_i trailing
        have whole : d.coefficient / 10 * 10 = d.coefficient := by omega
        have same : Scaled.rat ⟨d.coefficient / 10, d.exponent + 1⟩ = d.rat := by
          have cast : ((d.coefficient / 10 : Nat) : ℚ) * 10 = d.coefficient := by exact_mod_cast whole
          rw [Scaled.rat, Scaled.rat, zpow_add_one₀ (by norm_num), ← cast]
          ring
        refine ih ⟨?_, same ▸ h.contains⟩
        show d.coefficient / 10 ≠ 0
        omega
      · exact h

theorem identifies_shortest {x : Binary} (pos : 0 < x.significand) (tie : Tie) :
    Identifies (x.shortest tie) x := by
  refine identifies_strip ?_ 400
  cases found : (List.range 17).findSome? fun n =>
      x.onGrid? tie (x.magnitude - ((n + 1 : Nat) : Int)) with
  | none => exact identifies_exact pos
  | some d =>
      obtain ⟨n, -, eq⟩ := List.exists_of_findSome?_eq_some found
      exact identifies_of_holds pos (holds_of_onGrid? eq)

/-! ### The layout -/

theorem pow_length_digits_le {n : Nat} (h : n ≠ 0) : 10 ^ ((digits n).length - 1) ≤ n := by
  induction n using digits.induct with
  | case1 n small =>
      rw [digits, dif_pos small]
      exact Nat.one_le_iff_ne_zero.mpr h
  | case2 n large ih =>
      have filled := List.length_pos_of_ne_nil (digits_ne_nil (n / 10))
      have power : 10 ^ (digits (n / 10)).length = 10 ^ ((digits (n / 10)).length - 1) * 10 := by
        rw [← Nat.pow_succ]
        congr 1
        omega
      rw [digits, dif_neg large, List.length_append, List.length_singleton, Nat.add_sub_cancel, power]
      exact Nat.le_trans (Nat.mul_le_mul_right 10 (ih (by omega))) (Nat.div_mul_le_self n 10)

/-- The numeral that lays out a decimal. -/
def Style.layout (s : Style) (negative : Bool) (d : Scaled) : Numeral :=
  let ds := digits d.coefficient
  let lead := d.exponent + ds.length - 1
  if s.plain lead then s.plainNumeral negative ds lead else Style.scientificNumeral negative ds lead

/-- The numeral of a float is that of zero or lays out the shortest decimal. -/
theorem numeral_eq (s : Style) (x : Float) :
    s.numeral x =
      if (Binary.ofBits x.toBits).significand = 0 then s.plainNumeral (isNegative x) [.zero] 0
      else s.layout (isNegative x) ((Binary.ofBits x.toBits).shortest s.tie) := rfl

theorem plainNumeral_short (s : Style) (negative : Bool) (ds : List Digit) {lead : Int}
    (low : lead < 16) :
    (s.plainNumeral negative ds lead).whole.length ≤ 19 ∧
      (s.plainNumeral negative ds lead).exponent = none := by
  unfold Style.plainNumeral
  split
  · exact ⟨(by decide : 1 ≤ 19), rfl⟩
  · refine ⟨?_, rfl⟩
    simp only [List.length_append, List.length_take, List.length_replicate]
    omega

/-- The power of ten of the leading digit of a decimal that stays below the limit. -/
theorem lead_lt {d : Scaled} (nonzero : d.coefficient ≠ 0) (small : d.rat * slack ^ 3 < limit) :
    d.exponent + (digits d.coefficient).length - 1 < 309 := by
  by_contra large
  have filled := List.length_pos_of_ne_nil (digits_ne_nil d.coefficient)
  have digits_le : ((10 ^ ((digits d.coefficient).length - 1) : Nat) : ℚ) ≤ d.coefficient := by
    exact_mod_cast pow_length_digits_le nonzero
  have reached : limit ≤ d.rat * slack ^ 3 := by
    calc limit ≤ 10 ^ 309 := limit_le_ten_pow
      _ = 10 ^ (309 : Int) := (zpow_natCast 10 309).symm
      _ ≤ 10 ^ ((((digits d.coefficient).length - 1 : Nat) : Int) + d.exponent) :=
        zpow_le_zpow_right₀ (by norm_num) (by omega)
      _ = (10 ^ ((digits d.coefficient).length - 1) : Nat) * 10 ^ d.exponent := by
        rw [zpow_add₀ (by norm_num), zpow_natCast]
        push_cast
        rfl
      _ ≤ d.rat := mul_le_mul_of_nonneg_right digits_le (by positivity)
      _ ≤ d.rat * slack ^ 3 :=
        le_mul_of_one_le_right (mul_nonneg (Nat.cast_nonneg _) (by positivity))
          (one_le_pow₀ one_le_slack)
  exact absurd small (not_lt.mpr reached)

/-- A decimal is read without overflow if it stays below the limit by three roundings. -/
theorem isFinite_scaledSize_layout {d : Scaled} (negative : Bool) (nonzero : d.coefficient ≠ 0)
    (small : d.rat * slack ^ 3 < limit) :
    (dataStyle.layout negative d).scaledSize.isFinite = true := by
  rw [Style.layout]
  split
  · rename_i plain
    have low : d.exponent + (digits d.coefficient).length - 1 < 16 := by
      have range := Bool.and_eq_true _ _ ▸ plain
      exact of_decide_eq_true range.2
    obtain ⟨short, none⟩ := plainNumeral_short dataStyle negative
      (digits d.coefficient) low
    exact isFinite_scaledSize_plain short none
  · have filled := List.length_pos_of_ne_nil (digits_ne_nil d.coefficient)
    have lead := lead_lt nonzero small
    generalize eq : d.exponent + ((digits d.coefficient).length : Int) - 1 = l at lead ⊢
    refine isFinite_scaledSize_scientific (e := ⟨l < 0, digits l.natAbs⟩) ?_ rfl ?_ ?_
    · show ((digits d.coefficient).take 1).length ≤ 19
      rw [List.length_take]
      omega
    · intro positive
      have up : ¬ l < 0 := of_decide_eq_false positive
      rw [value_digits]
      omega
    · have toInt : (Exponent.mk (l < 0) (digits l.natAbs)).toInt = l := by
        simp only [Exponent.toInt, value_digits, decide_eq_true_eq]
        split <;> omega
      have all : (Style.scientificNumeral negative (digits d.coefficient) l).whole ++
          (Style.scientificNumeral negative (digits d.coefficient) l).fraction =
          digits d.coefficient := List.take_append_drop ..
      have fraction : (Style.scientificNumeral negative (digits d.coefficient) l).fraction.length =
          (digits d.coefficient).length - 1 := List.length_drop ..
      have exponent : l - (((digits d.coefficient).length - 1 : Nat) : Int) = d.exponent := by omega
      rw [all, fraction, value_digits, toInt, exponent]
      exact small

/-! ### Every finite float -/

/-- Three roundings up from the interval of a float stay below the limit, but for the six
largest floats. -/
theorem upper_lt_limit {x : Binary} (short : x.significand < 2 ^ 53) (range : x.exponent ≤ 971)
    (notLargest : x.exponent = 971 → x.significand + 6 < 2 ^ 53) :
    x.upper * slack ^ 3 < limit := by
  -- In the topmost binade the significand has to stay clear of its end; below it, it need not.
  have bound : ∃ (m : Nat) (e : Int), x.upper ≤ dyadic m e ∧ (m : ℚ) * slack ^ 3 < 2 ^ (1024 - e) := by
    by_cases top : x.exponent = 971
    · have cast : ((4 * (2 ^ 53 - 7) + 2 : Nat) : ℚ) * slack ^ 3 < 2 ^ 55 := by
        unfold slack
        norm_num
      refine ⟨4 * (2 ^ 53 - 7) + 2, 969, ?_, ?_⟩
      · rw [Binary.upper, top]
        exact dyadic_le_dyadic (by have := notLargest top; omega) _
      · exact_mod_cast cast
    · have cast : ((4 * 2 ^ 53 + 2 : Nat) : ℚ) * slack ^ 3 < 2 ^ 56 := by
        unfold slack
        norm_num
      refine ⟨4 * 2 ^ 53 + 2, 968, ?_, ?_⟩
      · refine (dyadic_le_dyadic (n := 4 * 2 ^ 53 + 2) (by omega) _).trans ?_
        exact mul_le_mul_of_nonneg_left (zpow_le_zpow_right₀ (by norm_num) (by omega))
          (Nat.cast_nonneg _)
      · exact_mod_cast cast
  obtain ⟨m, e, le, small⟩ := bound
  calc x.upper * slack ^ 3 ≤ dyadic m e * slack ^ 3 :=
        mul_le_mul_of_nonneg_right le (pow_nonneg slack_pos.le 3)
    _ = m * slack ^ 3 * 2 ^ e := by rw [dyadic]; ring
    _ < 2 ^ (1024 - e) * 2 ^ e := mul_lt_mul_of_pos_right small (by positivity)
    _ = limit := by rw [← zpow_add₀ (by norm_num), Int.sub_add_cancel, limit]

/-- The six largest floats are read without overflow. -/
theorem isFinite_scaledSize_largest (negative : Bool) : ∀ k < 6,
    (dataStyle.layout negative
      (Binary.shortest ⟨2 ^ 53 - 1 - k, 971, false⟩ .toEven)).scaledSize.isFinite = true := by
  cases negative <;> decide +kernel

theorem isFinite_scaledSize_numeral {x : Float} (h : x.isFinite = true) :
    (dataStyle.numeral x).scaledSize.isFinite = true := by
  rw [numeral_eq]
  split
  · obtain ⟨small, none⟩ := plainNumeral_short dataStyle (isNegative x) [.zero]
      (by decide : (0 : Int) < 16)
    exact isFinite_scaledSize_plain small none
  · rename_i nonzero
    have canonical := Binary.canonical_ofBits h nonzero
    generalize Binary.ofBits x.toBits = b at canonical ⊢
    obtain ⟨filled, contains⟩ := identifies_shortest canonical.pos .toEven
    by_cases largest : b.exponent = 971 → b.significand + 6 < 2 ^ 53
    · have small := upper_lt_limit canonical.short canonical.high largest
      refine isFinite_scaledSize_layout _ filled (lt_of_le_of_lt ?_ small)
      exact mul_le_mul_of_nonneg_right contains.le (pow_nonneg slack_pos.le 3)
    · -- One of the six largest: its place below the end is all that is left open.
      obtain ⟨top, few⟩ := Classical.not_imp.mp largest
      have short := canonical.short
      have wide := canonical.regular.wide (.inl (by omega))
      obtain ⟨significand, exponent, narrowBelow⟩ := b
      simp only at top wide short few
      subst top wide
      have place : significand = 2 ^ 53 - 1 - (2 ^ 53 - 1 - significand) := by omega
      rw [place]
      exact isFinite_scaledSize_largest _ _ (by omega)

theorem isFinite_neg {x : Float} (h : x.isFinite = true) : (-x).isFinite = true := by
  show (Float.Model.pack x.toModel.unpack.neg).isFinite = true
  refine isFinite_pack ?_
  rcases unpack_of_isFinite h with eq | ⟨z, canonical, eq⟩ <;> rw [eq]
  · trivial
  · exact canonical.high

/-- **Every finite float that was written is read back as a finite float.** -/
theorem exists_scaled?_numeral {x : Float} (h : x.isFinite = true) :
    ∃ y, (dataStyle.numeral x).scaled? = some y ∧ y.isFinite = true := by
  have size := isFinite_scaledSize_numeral h
  have finite : (dataStyle.numeral x).scaled.isFinite = true := by
    unfold Numeral.scaled
    split
    · exact isFinite_neg size
    · exact size
  exact ⟨_, if_pos finite, finite⟩

end MinerWatch.Decimal
