import MinerWatch.Proofs.Decimal.Double
import MinerWatch.Proofs.Decimal.Exact
/-!
The float that a decimal denotes.

`nearest` rounds once, whichever way it takes: through the table of powers, by a product
or by a quotient of whole numbers, and also where it does not compute the power at all. So it gives
the float whose interval has the decimal (`toModel_nearest_of_contains`), and zero where the
decimal is at most half of the least float (`toModel_nearest_of_tiny`).
-/

namespace MinerWatch.Decimal

open Float.Model Float.Model.UnpackedFloat

variable {v : ℚ} {b : Binary} {m n : Nat}

theorem half_least : (2 : ℚ) ^ (-1075 : Int) = 1 / 2 * 2 ^ (-1074 : Int) := by
  have twice := two_zpow_succ (-1075)
  norm_num only at twice
  rw [twice]
  ring

/-! ### Rounding at the least place -/

/-- Below the normal range nothing is shifted out before rounding. -/
theorem shiftOf_least (short : m < 2 ^ 53) : shiftOf m (-1074) = 0 := by
  have bits := shiftOf_eq m (-1074)
  have log : m.log2 ≤ 52 := by
    rcases Nat.eq_zero_or_pos m with rfl | pos
    · decide
    · exact Nat.le_of_lt_succ ((Nat.log2_lt pos.ne').mpr short)
  omega

/-- A number below the normal range lies in the interval of a float with the least place. -/
theorem Binary.Contains.least (contains : b.Contains (v * 2 ^ (-1074 : Int))) (regular : b.Regular)
    (small : v < 2 ^ 52) : b.exponent = -1074 := by
  by_contra more
  have normal : -1074 < b.exponent := lt_of_le_of_ne regular.low (Ne.symm more)
  have unit : (0 : ℚ) < 2 ^ (-1074 : Int) := by positivity
  have bound := mul_lt_mul_of_pos_right small unit
  rcases contains.gt regular normal with above | ⟨-, near⟩
  · rw [← Binary.two_zpow_add] at bound
    have := Binary.lt_of_zpow_lt (above.trans bound)
    omega
  · have place : (2 : ℚ) ^ (-1074 : Int) ≤ 2 ^ (b.exponent - 1) :=
      zpow_le_zpow_right₀ (by norm_num) (by omega)
    have reached := mul_le_mul_of_nonneg_left place (by norm_num : (0 : ℚ) ≤ 2 ^ 53 - 1 / 2)
    linarith

theorem roundWithAccuracy_of_contains_least (sign : Sign) {e : Int} {acc : Accuracy}
    (exact_ : Represents (.ofMantissaAndAccuracy m acc) v) (short : m < 2 ^ 52) (place : e = -1074)
    (regular : b.Regular) (contains : b.Contains (v * 2 ^ e)) :
    roundWithAccuracy .binary64 sign m e acc =
      .finite sign b.significand b.exponent regular.pos := by
  subst place
  have small : v < 2 ^ 52 := by
    have next : (m : ℚ) + 1 ≤ 2 ^ 52 := by exact_mod_cast short
    have bound := exact_.bounds.2
    rw [mantissa_ofMantissaAndAccuracy] at bound
    linarith
  have least := contains.least regular small
  have first : shiftOf m (-1074) = 0 := shiftOf_least (by omega)
  have rounded : roundedOf m (-1074) acc = b.significand := by
    apply roundedOf_of_nearest exact_
    rw [first, Nat.cast_zero, Int.add_zero, ← least]
    rw [← least] at contains
    exact contains.nearest regular.pos
  have second : shiftOf b.significand (-1074 + shiftOf m (-1074)) = 0 := by
    rw [first]
    exact shiftOf_least regular.short
  have unit : b.significand / 2 ^ 0 = b.significand := by rw [Nat.pow_zero, Nat.div_one]
  rw [roundWithAccuracy_eq_of rounded second (by rw [unit]; exact regular.pos)]
  congr 1
  omega

/-- At most half of the least float is rounded to zero. -/
theorem roundWithAccuracy_of_tiny (sign : Sign) {e : Int} {acc : Accuracy}
    (exact_ : Represents (.ofMantissaAndAccuracy m acc) v) (tiny : v ≤ 1 / 2) (place : e = -1074) :
    roundWithAccuracy .binary64 sign m e acc = .zero sign := by
  subst place
  have bounds := exact_.bounds
  rw [mantissa_ofMantissaAndAccuracy] at bounds
  have zero : m = 0 := by
    have below : (m : ℚ) < 1 := by linarith [bounds.1]
    exact Nat.lt_one_iff.mp (by exact_mod_cast below)
  subst zero
  have rounded : roundedOf 0 (-1074) acc = 0 := by
    apply roundedOf_of_nearest exact_
    rw [shiftOf_least (by decide), Nat.cast_zero, Int.add_zero,
      mul_div_cancel_right₀ _ (by positivity)]
    rw [Nat.cast_zero] at bounds
    exact ⟨by push_cast; linarith [bounds.1], by push_cast; linarith, fun odd => absurd odd (by decide)⟩
  rw [roundWithAccuracy_eq_shifted, rounded, dif_pos (Nat.zero_div _)]

/-! ### Quotients of whole numbers -/

/-- Dividing whole numbers gives a quotient that is long enough to round, or one of the least place. -/
theorem divCore_whole (pos : 0 < m) (posn : 0 < n) :
    ∃ k : Nat, divCore .binary64 m 0 n 0 =
        (m * 2 ^ k / n, -(k : Int), accuracyOfFraction (m * 2 ^ k % n) n) ∧
      k ≤ 1074 ∧ (2 ^ 52 ≤ m * 2 ^ k / n ∨ k = 1074) := by
  have precision : (Format.binary64.mantissaBits : Int) = 53 := rfl
  have least : Format.binary64.minExponent = -1074 := rfl
  obtain ⟨t, place⟩ : ∃ t : Int, t = min (0 - 0)
      (Format.binary64.targetExponent (totalExponent m 0 - totalExponent n 0)) := ⟨_, rfl⟩
  have start := place
  simp only [Format.targetExponent, totalExponent, precision, least] at start
  have shift : (0 - 0 - t).toNat = t.natAbs := by omega
  have power : t = -(t.natAbs : Int) := by omega
  refine ⟨t.natAbs, ?_, by omega, ?_⟩
  · simp only [divCore, ← place, shift, Nat.shiftLeft_eq, ← power]
  · rcases Int.lt_or_le (m.log2 - n.log2 - 53 : Int) (-1074) with deep | shallow
    · exact .inr (by omega)
    · left
      rw [Nat.le_div_iff_mul_le posn]
      calc 2 ^ 52 * n ≤ 2 ^ 52 * 2 ^ (n.log2 + 1) :=
            Nat.mul_le_mul_left _ (Nat.le_of_lt Nat.lt_log2_self)
        _ = 2 ^ (52 + (n.log2 + 1)) := (Nat.pow_add ..).symm
        _ ≤ 2 ^ (m.log2 + t.natAbs) := Nat.pow_le_pow_right (by decide) (by omega)
        _ = 2 ^ m.log2 * 2 ^ t.natAbs := Nat.pow_add ..
        _ ≤ m * 2 ^ t.natAbs := Nat.mul_le_mul_right _ (Nat.log2_self_le pos.ne')

theorem quotient_scaled (m n k : Nat) :
    ((m * 2 ^ k : Nat) : ℚ) / n * 2 ^ (-k : Int) = m / n := by
  rw [zpow_neg, zpow_natCast]
  push_cast
  field_simp

/-- A quotient of whole numbers is rounded to the float whose interval has it. -/
theorem div_whole_of_contains (pos : 0 < m) (posn : 0 < n) (regular : b.Regular)
    (contains : b.Contains (m / n : ℚ)) :
    UnpackedFloat.div .binary64 (.finite .positive m 0 pos) (.finite .positive n 0 posn) =
      .finite .positive b.significand b.exponent regular.pos := by
  obtain ⟨k, parts, -, long⟩ := divCore_whole pos posn
  have exact_ := represents_div (m * 2 ^ k) posn
  rw [← quotient_scaled m n k] at contains
  simp only [UnpackedFloat.div, parts]
  rcases long with filled | least
  · exact roundWithAccuracy_of_contains _ filled exact_ regular contains
  · rcases Nat.lt_or_ge (m * 2 ^ k / n) (2 ^ 52) with short | filled
    · exact roundWithAccuracy_of_contains_least _ exact_ short (by omega) regular contains
    · exact roundWithAccuracy_of_contains _ filled exact_ regular contains

/-- A quotient of at most half of the least float is rounded to zero. -/
theorem div_whole_of_tiny (pos : 0 < m) (posn : 0 < n) (tiny : (m / n : ℚ) ≤ 2 ^ (-1075 : Int)) :
    UnpackedFloat.div .binary64 (.finite .positive m 0 pos) (.finite .positive n 0 posn) =
      .zero .positive := by
  obtain ⟨k, parts, low, long⟩ := divCore_whole pos posn
  have exact_ := represents_div (m * 2 ^ k) posn
  have unit : (0 : ℚ) < 2 ^ (-k : Int) := by positivity
  have small : ((m * 2 ^ k : Nat) / n : ℚ) ≤ 1 / 2 := by
    have half : (2 : ℚ) ^ (-1075 : Int) ≤ 2 ^ (-k - 1 : Int) :=
      zpow_le_zpow_right₀ (by norm_num) (by omega)
    rw [zpow_sub_one₀ (by norm_num)] at half
    rw [← quotient_scaled m n k] at tiny
    rw [← mul_le_mul_iff_left₀ unit]
    linarith
  have short : m * 2 ^ k / n = 0 := by
    have bound := exact_.bounds.1
    rw [mantissa_ofMantissaAndAccuracy] at bound
    have less : ((m * 2 ^ k / n : Nat) : ℚ) < 1 := by linarith
    exact Nat.lt_one_iff.mp (by exact_mod_cast less)
  have least : k = 1074 := long.resolve_left (by omega)
  simp only [UnpackedFloat.div, parts]
  exact roundWithAccuracy_of_tiny _ exact_ small (by omega)

/-- No interval of a float reaches below half of the least float. -/
theorem Binary.Regular.le_lower (regular : b.Regular) :
    (b.significand - 1 / 2) * 2 ^ (-1074 : Int) ≤ b.lower := by
  have least : (2 : ℚ) ^ (-1074 : Int) ≤ 2 ^ b.exponent :=
    zpow_le_zpow_right₀ (by norm_num) regular.low
  have one : (1 : ℚ) ≤ b.significand := by exact_mod_cast regular.pos
  rw [lower_eq regular.pos]
  refine mul_le_mul ?_ least (by positivity) ?_ <;> split <;> linarith

/-- Half of the least float is in no interval. -/
theorem Binary.Contains.half_lt (contains : b.Contains v) (regular : b.Regular) :
    2 ^ (-1075 : Int) < v := by
  have unit : (0 : ℚ) < 2 ^ (-1074 : Int) := by positivity
  have lower := regular.le_lower
  rw [half_least]
  rcases Nat.lt_or_ge 1 b.significand with more | one
  · have two : (2 : ℚ) ≤ b.significand := by exact_mod_cast more
    have scaled := mul_le_mul_of_nonneg_right two unit.le
    linarith [contains.ge]
  · have first : b.significand = 1 := le_antisymm one regular.pos
    have above := (contains.inner (by rw [first])).1
    rw [first, Nat.cast_one] at lower
    linarith

/-- A number is rounded to one number only. -/
theorem RoundsTo.unique {x y : ℚ} (hx : RoundsTo v x) (hy : RoundsTo v y) : x = y := by
  cases hx with
  | zero tiny =>
      cases hy with
      | zero => rfl
      | binary regular contains => exact absurd (contains.half_lt regular) (not_lt.mpr tiny)
  | @binary a regulara containsa =>
      cases hy with
      | zero tiny => exact absurd (containsa.half_lt regulara) (not_lt.mpr tiny)
      | @binary b regularb containsb =>
          -- Both are what the quotient that makes up the number is rounded to.
          have pos : 0 < v := lt_trans (by positivity) (containsa.half_lt regulara)
          have numerator := Rat.num_pos.mpr pos
          have parts : (v.num.toNat / v.den : ℚ) = v := by
            have up : (v.num.toNat : ℚ) = v.num := by exact_mod_cast Int.toNat_of_nonneg numerator.le
            rw [up, Rat.num_div_den]
          have filled : 0 < v.num.toNat := by omega
          rw [← parts] at containsa containsb
          have same := (div_whole_of_contains filled v.den_pos regulara containsa).symm.trans
            (div_whole_of_contains filled v.den_pos regularb containsb)
          obtain ⟨-, significand, exponent⟩ := UnpackedFloat.finite.inj same
          rw [significand, exponent]

/-! ### Powers of ten -/

theorem denotes_powerOfTen {n : Nat} (h : n < Float.exactlyRepresentablePowersOfTen.size) :
    Denotes Float.exactlyRepresentablePowersOfTen[n] (10 ^ n) := by
  have all : ∀ (n : Nat) (h : n < Float.exactlyRepresentablePowersOfTen.size),
      isPowerOfTen Float.exactlyRepresentablePowersOfTen[n] n = true := by decide
  exact denotes_of_isPowerOfTen (all n h)

theorem zpow_of_neg {p : Int} (down : p < 0) : (10 : ℚ) ^ p = 1 / 10 ^ p.natAbs := by
  rw [one_div, ← zpow_natCast, ← zpow_neg]
  congr 1
  omega

theorem zpow_of_nonneg {p : Int} (up : 0 ≤ p) : (10 : ℚ) ^ p = 10 ^ p.natAbs := by
  rw [← zpow_natCast]
  congr 1
  omega

theorem exponent_eq (p : Int) :
    (if decide (p < 0) = true then Int.negOfNat p.natAbs else Int.ofNat p.natAbs) = p := by
  split <;> simp only [decide_eq_true_eq, Int.negOfNat_eq, Int.ofNat_eq_natCast] at * <;> omega

/-- What becomes of a decimal whose power of ten is computed. -/
theorem unpackedOfScientific_eq {c : Nat} {p : Int} (pos : 0 < c) (high : p ≤ 2 ^ 11)
    (low : -(2 ^ 11 + c.log2) ≤ p) :
    UnpackedFloat.ofScientific .binary64 c p =
      if 0 ≤ p then
        roundWithAccuracy .binary64 .positive (c <<< 53 * 10 ^ p.natAbs) (-53) .exact
      else
        UnpackedFloat.div .binary64 (.finite .positive c 0 pos)
          (.finite .positive (10 ^ p.natAbs) 0 (Nat.pow_pos (by decide))) := by
  have notHuge : ¬ p > 2 ^ Format.binary64.exponentBits := not_lt.mpr high
  have notTiny : ¬ p < -((2 ^ Format.binary64.exponentBits : Int) + c.log2) := not_lt.mpr low
  simp only [UnpackedFloat.ofScientific, dif_neg pos.ne', if_neg notHuge, if_neg notTiny]
  split
  · rename_i up
    have power : p.toNat = p.natAbs := by omega
    simp only [power]
    rfl
  · rename_i down
    have power : (-p).toNat = p.natAbs := by omega
    simp only [power]

/-- **A decimal of moderate size is rounded to the float whose interval has it.** -/
theorem toModel_ofScientific {c : Nat} {p : Int} (pos : 0 < c) (high : p ≤ 2 ^ 11)
    (low : -(2 ^ 11 + c.log2) ≤ p) (regular : b.Regular) (contains : b.Contains (c * 10 ^ p)) :
    (Float.ofScientific c (p < 0) p.natAbs).toModel =
      .pack (.finite .positive b.significand b.exponent regular.pos) := by
  unfold Float.ofScientific
  split
  · rename_i table
    have word := denotes_toFloat pos table.1
    have power := denotes_powerOfTen (n := p.natAbs) (Nat.lt_succ_of_le table.2)
    dsimp only
    split
    · rename_i down
      have one : (1 : ℚ) ≤ c := by exact_mod_cast pos
      rw [zpow_of_neg (of_decide_eq_true down), mul_one_div] at contains
      exact div_of_contains word power one (pow_le_pow_right₀ (by norm_num) table.2) regular contains
    · rename_i up
      rw [zpow_of_nonneg (by simpa using up)] at contains
      exact mul_of_contains word power regular contains
  · show Float.Model.pack (UnpackedFloat.ofScientific .binary64 c
      (if decide (p < 0) = true then Int.negOfNat p.natAbs else Int.ofNat p.natAbs)) = _
    rw [exponent_eq, unpackedOfScientific_eq pos high low]
    congr 1
    split
    · rename_i up
      have value : ((c <<< 53 * 10 ^ p.natAbs : Nat) : ℚ) * 2 ^ (-53 : Int) = c * 10 ^ p := by
        rw [zpow_of_nonneg up, Nat.shiftLeft_eq]
        push_cast
        norm_num
        ring
      have long : 2 ^ 52 ≤ c <<< 53 * 10 ^ p.natAbs := by
        rw [Nat.shiftLeft_eq]
        calc 2 ^ 52 ≤ 2 ^ 53 := by decide
          _ ≤ c * 2 ^ 53 := Nat.le_mul_of_pos_left _ pos
          _ ≤ c * 2 ^ 53 * 10 ^ p.natAbs := Nat.le_mul_of_pos_right _ (Nat.pow_pos (by decide))
      rw [← value] at contains
      exact roundWithAccuracy_of_contains _ long (represents_exact _) regular contains
    · rename_i down
      rw [zpow_of_neg (not_le.mp down), mul_one_div] at contains
      exact div_whole_of_contains pos (Nat.pow_pos (by decide)) regular (by exact_mod_cast contains)

/-- A decimal of at most half of the least float is rounded to zero. -/
theorem toModel_ofScientific_of_tiny {c : Nat} {p : Int} (pos : 0 < c) (high : p ≤ 2 ^ 11)
    (low : -(2 ^ 11 + c.log2) ≤ p) (tiny : (c * 10 ^ p : ℚ) ≤ 2 ^ (-1075 : Int)) :
    (Float.ofScientific c (p < 0) p.natAbs).toModel = .pack (.zero .positive) := by
  have deep : p < -22 := by
    by_contra shallow
    have power : (10 : ℚ) ^ (-22 : Int) ≤ 10 ^ p := zpow_le_zpow_right₀ (by norm_num) (by omega)
    have half : (2 : ℚ) ^ (-1075 : Int) ≤ 2 ^ (-74 : Int) :=
      zpow_le_zpow_right₀ (by norm_num) (by decide)
    have table : (2 : ℚ) ^ (-74 : Int) < 10 ^ (-22 : Int) := by norm_num
    have one : (1 : ℚ) ≤ c := by exact_mod_cast pos
    have grown := mul_le_mul one power (by positivity) (by positivity)
    linarith
  have slow : ¬ (c < 2 ^ 53 ∧ p.natAbs ≤ 22) := by omega
  unfold Float.ofScientific
  rw [dif_neg slow]
  show Float.Model.pack (UnpackedFloat.ofScientific .binary64 c
    (if decide (p < 0) = true then Int.negOfNat p.natAbs else Int.ofNat p.natAbs)) = _
  rw [exponent_eq, unpackedOfScientific_eq pos high low, if_neg (by omega)]
  rw [zpow_of_neg (by omega), mul_one_div] at tiny
  congr 1
  exact div_whole_of_tiny pos (Nat.pow_pos (by decide)) (by exact_mod_cast tiny)

/-! ### Decimals of any size -/

theorem lt_pow_length_digits (n : Nat) : n < 10 ^ (digits n).length := by
  have bound : value (digits n) < 10 ^ (0 + (digits n).length) := valueFrom_lt (by decide) (digits n)
  rwa [value_digits, Nat.zero_add] at bound

theorem length_digits_pos (n : Nat) : 0 < (digits n).length :=
  List.length_pos_of_ne_nil (digits_ne_nil n)

variable {c : Nat} {p : Int}

/-- The number of its digits tells how large a decimal is. -/
theorem size_bounds (pos : 0 < c) (p : Int) :
    (10 : ℚ) ^ (p + (digits c).length - 1) ≤ c * 10 ^ p ∧
      (c * 10 ^ p : ℚ) < 10 ^ (p + (digits c).length) := by
  have scale : (0 : ℚ) < 10 ^ p := by positivity
  have filled := length_digits_pos c
  have low : (10 : ℚ) ^ ((digits c).length - 1) ≤ c := by
    exact_mod_cast pow_length_digits_le pos.ne'
  have high : (c : ℚ) < 10 ^ (digits c).length := by exact_mod_cast lt_pow_length_digits c
  have before : p + (digits c).length - 1 = ((digits c).length - 1 : Nat) + p := by omega
  rw [before, Int.add_comm p, zpow_add₀ (by norm_num), zpow_add₀ (by norm_num), zpow_natCast,
    zpow_natCast]
  exact ⟨mul_le_mul_of_nonneg_right low scale.le, mul_lt_mul_of_pos_right high scale⟩

theorem length_digits_le (pos : 0 < c) : (digits c).length ≤ c.log2 + 1 := by
  have power : 2 ^ ((digits c).length - 1) ≤ c :=
    Nat.le_trans (Nat.pow_le_pow_left (by decide) _) (pow_length_digits_le pos.ne')
  have := (Nat.le_log2 pos.ne').mpr power
  omega

theorem two_pow_le_ten_pow : (2 : ℚ) ^ (1024 : Int) ≤ 10 ^ (310 : Int) := by
  have power : (10 : ℚ) ^ 309 ≤ 10 ^ 310 := pow_le_pow_right₀ (by norm_num) (by decide)
  rw [show (310 : Int) = (310 : Nat) from rfl, zpow_natCast]
  exact limit_le_ten_pow.trans power

theorem ten_pow_le_two_pow : (10 : ℚ) ^ (-331 : Int) ≤ 2 ^ (-1075 : Int) := by
  have exact_ : 2 ^ 1075 ≤ 10 ^ 331 := by
    rw [show 1075 = 215 * 5 from rfl, Nat.pow_mul, show 331 = 165 + 166 from rfl, Nat.pow_add]
    decide
  have cast : ((2 ^ 1075 : Nat) : ℚ) ≤ ((10 ^ 331 : Nat) : ℚ) := Nat.cast_le.mpr exact_
  rw [Nat.cast_pow, Nat.cast_pow] at cast
  rw [zpow_neg, zpow_neg]
  exact inv_anti₀ (by positivity) cast

/-- A float with too large a power of two is packed as infinity. -/
theorem pack_of_gt (s : Sign) {e : Int} (pos : 0 < m) (high : 971 < e) :
    Float.Model.pack (.finite s m e pos) = .pack (.infinity s) := by
  have field : (e + Format.binary64.exponentBias + Format.binary64.mantissaBitsWithoutImplicit) =
      e + 1075 := by
    show e + 1023 + 52 = e + 1075
    omega
  have large : 2 ^ Format.binary64.exponentBits ≤ (e + 1075).toNat + 1 := by
    show 2048 ≤ _
    omega
  simp only [Float.Model.pack, UnpackedFloat.pack, field, if_pos large]

theorem toModel_infinity : infinity.toModel = .pack (.infinity .positive) := rfl

theorem toModel_zero : (0.0 : Float).toModel = .pack (.zero .positive) := rfl

/-- **A decimal is rounded to the float whose interval has it.** -/
theorem toModel_nearest_of_contains (pos : 0 < c) (regular : b.Regular)
    (contains : b.Contains (c * 10 ^ p)) :
    (nearest c p).toModel = .pack (.finite .positive b.significand b.exponent regular.pos) := by
  obtain ⟨ge, lt⟩ := size_bounds pos p
  have filled := length_digits_pos c
  rw [nearest, if_neg pos.ne']
  dsimp only
  split
  · rename_i huge
    have power : (10 : ℚ) ^ (310 : Int) ≤ 10 ^ (p + (digits c).length - 1) :=
      zpow_le_zpow_right₀ (by norm_num) (by omega)
    have top : 1024 < 53 + b.exponent := Binary.lt_of_zpow_lt <|
      (two_pow_le_ten_pow.trans (power.trans ge)).trans_lt (contains.lt regular)
    rw [toModel_infinity, pack_of_gt .positive regular.pos (by omega)]
  · split
    · rename_i dust
      have power : (10 : ℚ) ^ (p + (digits c).length) ≤ 10 ^ (-331 : Int) :=
        zpow_le_zpow_right₀ (by norm_num) (by omega)
      have below := (lt.trans_le power).trans_le ten_pow_le_two_pow
      exact absurd (contains.half_lt regular) (not_lt.mpr below.le)
    · have length := length_digits_le pos
      exact toModel_ofScientific pos (by omega) (by omega) regular contains

/-- **A decimal of at most half of the least float is zero.** -/
theorem toModel_nearest_of_tiny (tiny : (c * 10 ^ p : ℚ) ≤ 2 ^ (-1075 : Int)) :
    (nearest c p).toModel = .pack (.zero .positive) := by
  rw [nearest]
  split
  · exact toModel_zero
  · rename_i nonzero
    have pos := Nat.pos_of_ne_zero nonzero
    obtain ⟨ge, -⟩ := size_bounds pos p
    have filled := length_digits_pos c
    dsimp only
    split
    · rename_i huge
      have power : (10 : ℚ) ^ (0 : Int) ≤ 10 ^ (p + (digits c).length - 1) :=
        zpow_le_zpow_right₀ (by norm_num) (by omega)
      have half : (2 : ℚ) ^ (-1075 : Int) < 2 ^ (0 : Int) :=
        zpow_lt_zpow_right₀ (by norm_num) (by decide)
      rw [zpow_zero] at power half
      linarith
    · split
      · exact toModel_zero
      · have length := length_digits_le pos
        exact toModel_ofScientific_of_tiny pos (by omega) (by omega) tiny

end MinerWatch.Decimal
