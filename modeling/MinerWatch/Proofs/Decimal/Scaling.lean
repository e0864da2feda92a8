import MinerWatch.Decimal.Reading
import MinerWatch.Proofs.Decimal.Nearest
/-!
When scaling by a power of ten stays finite.

Scaling down never overflows (`isFinite_scaleBy_of_neg`). Scaling up does not either, as
long as the exact product stays below the largest float by three roundings
(`isFinite_scaleBy_of_lt`): the significand is rounded, and so are the power and the product.
-/

namespace MinerWatch.Decimal

open Float.Model Float.Model.UnpackedFloat

/-- The first power of two that no float reaches. -/
def limit : ℚ := 2 ^ (1024 : Int)

/-- The float denotes a number in normal form, of at least `2 ^ low` and at most `high`. -/
def Between (low : Int) (high : ℚ) (x : Float) : Prop :=
  ∃ s m e pos, x.toModel.unpack = .finite s m e pos ∧ Normal m ∧ low ≤ 52 + e ∧ dyadic m e ≤ high

/-- The float denotes just this number, and is in normal form. -/
def Denotes (x : Float) (q : ℚ) : Prop :=
  ∃ m e pos, x.toModel.unpack = .finite .positive m e pos ∧ Normal m ∧ dyadic m e = q

theorem Normal.binade {m : Nat} (normal : Normal m) (e : Int) :
    2 ^ (52 + e) ≤ dyadic m e ∧ dyadic m e < 2 ^ (53 + e) := by
  have low : (2 : ℚ) ^ (52 : Int) ≤ m := by exact_mod_cast normal.1
  have high : (m : ℚ) < 2 ^ (53 : Int) := by exact_mod_cast normal.2
  rw [dyadic, zpow_add₀ (by norm_num), zpow_add₀ (by norm_num)]
  exact ⟨mul_le_mul_of_nonneg_right low (by positivity), mul_lt_mul_of_pos_right high (by positivity)⟩

theorem one_le_slack : 1 ≤ slack := by
  unfold slack
  norm_num

theorem slack_pos : 0 < slack :=
  zero_lt_one.trans_le one_le_slack

theorem limit_eq : limit = ((2 ^ 1024 : Nat) : ℚ) := by
  rw [limit, Nat.cast_pow]
  exact zpow_natCast 2 1024

theorem ten_pow_lt_limit : 10 ^ 308 * slack < limit := by
  have exact_ : (10 ^ 308 * 3 : Nat) < 2 ^ 1024 * 2 := by
    rw [show 308 = 154 + 154 from rfl, Nat.pow_add, show 1024 = 256 * 4 from rfl, Nat.pow_mul]
    decide
  have cast : ((10 ^ 308 * 3 : Nat) : ℚ) < ((2 ^ 1024 * 2 : Nat) : ℚ) := Nat.cast_lt.mpr exact_
  rw [Nat.cast_mul, Nat.cast_mul, ← limit_eq, Nat.cast_pow] at cast
  have half : slack ≤ 3 / 2 := by
    unfold slack
    norm_num
  have grown : (10 : ℚ) ^ 308 * slack ≤ 10 ^ 308 * (3 / 2) :=
    mul_le_mul_of_nonneg_left half (pow_nonneg (by norm_num) _)
  simp only [Nat.cast_ofNat] at cast
  generalize (10 : ℚ) ^ 308 = p at cast grown ⊢
  linarith

theorem limit_le_ten_pow : limit ≤ 10 ^ 309 := by
  have exact_ : (2 ^ 1024 : Nat) ≤ 10 ^ 309 := by
    rw [show 1024 = 256 * 4 from rfl, Nat.pow_mul, show 309 = 103 * 3 from rfl, Nat.pow_mul]
    decide
  have cast : ((2 ^ 1024 : Nat) : ℚ) ≤ ((10 ^ 309 : Nat) : ℚ) := Nat.cast_le.mpr exact_
  rwa [← limit_eq, Nat.cast_pow] at cast

/-- A number in normal form that is not too large has a power of two that a float can hold. -/
theorem exponent_le_of_dyadic_lt {m : Nat} {e : Int} (normal : Normal m)
    (small : dyadic m e < limit) : e ≤ 971 := by
  have binade := (normal.binade e).1.trans_lt small
  rw [limit, zpow_lt_zpow_iff_right₀ (by norm_num)] at binade
  omega

/-- A number that is rounded and packed is in normal form and grew little. -/
theorem between_pack {sign : Sign} {m : Nat} {e low : Int} {acc : Accuracy} (long : 2 ^ 52 ≤ m)
    (range : -1022 ≤ low) (ge : low ≤ (m.log2 : Int) + e) (small : dyadic m e * slack < limit) :
    Between low (dyadic m e * slack)
      (.ofModel (.pack (roundWithAccuracy .binary64 sign m e acc))) := by
  obtain ⟨m', e', pos, eq, normal, ge', le⟩ :=
    roundWithAccuracy_long sign long (Int.le_trans range ge) acc
  have high := exponent_le_of_dyadic_lt normal (le.trans_lt small)
  have unpacked := unpack_pack_normal sign pos normal (by omega) high
  exact ⟨sign, m', e', pos, by rw [eq]; exact unpacked, normal, by omega, le⟩

/-- A long significand does not overflow that stays below the largest float by one rounding. -/
theorem isFinite_pack_round {sign : Sign} {m : Nat} {e : Int} {acc : Accuracy} (long : 2 ^ 52 ≤ m)
    (small : dyadic m e * slack < limit) :
    (Float.Model.pack (roundWithAccuracy .binary64 sign m e acc)).isFinite = true := by
  refine isFinite_pack ?_
  -- Below the normal range the bound on the size says little, but the exponent is far from the top.
  rcases Int.lt_or_le ((m.log2 : Int) + e) (-1022) with tiny | range
  · have bits : 52 ≤ m.log2 := (Nat.le_log2 (by omega)).mpr long
    rcases exponent_roundWithAccuracy sign m e acc with eq | ⟨m', e', pos, eq, le⟩ <;> rw [eq]
    · trivial
    · show e' ≤ 971
      omega
  · obtain ⟨m', e', pos, eq, normal, -, le⟩ := roundWithAccuracy_long sign long range acc
    rw [eq]
    exact exponent_le_of_dyadic_lt normal (le.trans_lt small)

/-! ### Words and powers of ten as floats -/

/-- A word is filled up to 53 bits before it is rounded. -/
theorem toFloat_eq {n : Nat} (pos : 0 < n) (word : n < UInt64.size) :
    n.toUInt64.toFloat = .ofModel (.pack (roundWithAccuracy .binary64 .positive
      (n <<< (52 - n.log2)) (0 - (52 - n.log2 : Nat)) .exact)) := by
  have toNat : n.toUInt64.toNat = n := Nat.mod_eq_of_lt word
  have gt : compare (n : Int) 0 = .gt := Int.compare_eq_gt.mpr (by omega)
  have shift : (0 - Format.binary64.targetExponent (totalExponent n 0)).toNat = 52 - n.log2 := by
    have bits : (Format.binary64.mantissaBits : Int) = 53 := rfl
    have least : Format.binary64.minExponent = -1074 := rfl
    simp only [Format.targetExponent, totalExponent, bits, least]
    omega
  simp only [UInt64.toFloat, Float.Model.ofUInt64, UnpackedFloat.ofUInt64, UnpackedFloat.ofNat,
    UnpackedFloat.ofInt, UnpackedFloat.normalize, toNat, gt, UnpackedFloat.round, decreaseExponent,
    Int.toNat_natCast, shift]

theorem dyadic_filled (n : Nat) : dyadic (n <<< (52 - n.log2)) (0 - (52 - n.log2 : Nat)) = n := by
  rw [Nat.shiftLeft_eq, ← dyadic_shift, Int.sub_add_cancel, dyadic, zpow_zero, mul_one]

theorem le_filled {n : Nat} (pos : 0 < n) : 2 ^ 52 ≤ n <<< (52 - n.log2) := by
  calc 2 ^ 52 ≤ 2 ^ (n.log2 + (52 - n.log2)) := Nat.pow_le_pow_right (by decide) (by omega)
    _ = 2 ^ n.log2 * 2 ^ (52 - n.log2) := Nat.pow_add ..
    _ ≤ n * 2 ^ (52 - n.log2) := Nat.mul_le_mul_right _ (Nat.log2_self_le (by omega))
    _ = n <<< (52 - n.log2) := (Nat.shiftLeft_eq ..).symm

theorem between_toFloat {n : Nat} (pos : 0 < n) (word : n < UInt64.size) :
    Between 0 (n * slack) n.toUInt64.toFloat := by
  have size := dyadic_filled n
  have long := le_filled pos
  have bits : 52 ≤ (n <<< (52 - n.log2)).log2 := (Nat.le_log2 (by omega)).mpr long
  rw [toFloat_eq pos word, ← size]
  refine between_pack long (by decide) (by omega) ?_
  rw [size]
  have cast : (n : ℚ) ≤ 10 ^ 308 := by
    have le : n ≤ 10 ^ 20 := Nat.le_trans (Nat.le_of_lt word) (by decide)
    have cast : (n : ℚ) ≤ 10 ^ 20 := by exact_mod_cast le
    exact cast.trans (pow_le_pow_right₀ (by norm_num) (by decide))
  exact lt_of_le_of_lt (mul_le_mul_of_nonneg_right cast slack_pos.le) ten_pow_lt_limit

/-- The float is this power of ten, and in normal form. -/
def isPowerOfTen (x : Float) (n : Nat) : Bool :=
  match x.toModel.unpack with
  | .finite .positive m e _ =>
    2 ^ 52 ≤ m && m < 2 ^ 53 && -52 ≤ e && m * 2 ^ (52 + e).toNat = 10 ^ n * 2 ^ 52
  | _ => false

theorem denotes_of_isPowerOfTen {x : Float} {n : Nat} (h : isPowerOfTen x n = true) :
    Denotes x (10 ^ n) := by
  unfold isPowerOfTen at h
  split at h
  · rename_i m e pos eq
    simp only [Bool.and_eq_true, decide_eq_true_eq] at h
    obtain ⟨⟨⟨low, high⟩, range⟩, exact_⟩ := h
    refine ⟨m, e, pos, eq, ⟨low, high⟩, ?_⟩
    have cast : (m : ℚ) * 2 ^ (52 + e).toNat = 10 ^ n * 2 ^ 52 := by exact_mod_cast exact_
    have shift : (2 : ℚ) ^ (52 + e).toNat = 2 ^ e * 2 ^ 52 := by
      rw [← zpow_natCast, Int.toNat_of_nonneg (by omega), zpow_add₀ (by norm_num), mul_comm]
      norm_num
    rw [shift, ← mul_assoc] at cast
    exact mul_right_cancel₀ (by positivity) cast
  · exact absurd h (by simp)

theorem denotes_tenTo {n : Nat} (h : n ≤ 22) : Denotes (tenTo n) (10 ^ n) := by
  have all : ∀ n < 23, isPowerOfTen (tenTo n) n = true := by decide
  exact denotes_of_isPowerOfTen (all n (by omega))

theorem between_tenTo_of_le {n : Nat} (h : n ≤ 22) : Between n (10 ^ n * slack) (tenTo n) := by
  obtain ⟨m, e, pos, eq, normal, size⟩ := denotes_tenTo h
  refine ⟨.positive, m, e, pos, eq, normal, ?_, ?_⟩
  · have power : (2 : ℚ) ^ (n : Int) ≤ 10 ^ n := by
      rw [zpow_natCast]
      exact pow_le_pow_left₀ (by norm_num) (by norm_num) n
    have := (zpow_lt_zpow_iff_right₀ (by norm_num)).mp (power.trans_lt (size ▸ (normal.binade e).2))
    omega
  · rw [size]
    exact le_mul_of_one_le_right (by positivity) one_le_slack

/-- A power of ten beyond the table is computed in full and rounded once. -/
theorem tenTo_eq {n : Nat} (large : 22 < n) (h : n ≤ 308) :
    tenTo n = .ofModel (.pack (roundWithAccuracy .binary64
      (Sign.positive * Sign.positive) (1 <<< 53 * 10 ^ n) (-53 + 0) .exact)) := by
  have slow : ¬ (1 < 2 ^ 53 ∧ n ≤ 22) := by omega
  have notHuge : ¬ (Int.ofNat n > 2 ^ Format.binary64.exponentBits) := by
    show ¬ (Int.ofNat n > 2 ^ 11)
    simp only [Int.ofNat_eq_natCast]
    omega
  have notTiny : ¬ (Int.ofNat n < -((2 ^ Format.binary64.exponentBits : Int) + Nat.log2 1)) := by
    show ¬ (Int.ofNat n < -((2 ^ 11 : Int) + Nat.log2 1))
    simp only [Int.ofNat_eq_natCast]
    omega
  have up : 0 ≤ Int.ofNat n := Int.natCast_nonneg n
  simp only [tenTo, Float.ofScientific, dif_neg slow, Bool.false_eq_true, if_false,
    Float.Model.ofScientific, UnpackedFloat.ofScientific, dif_neg Nat.one_ne_zero,
    if_neg notHuge, if_neg notTiny, if_pos up]
  rfl

theorem between_tenTo {n : Nat} (h : n ≤ 308) : Between n (10 ^ n * slack) (tenTo n) := by
  rcases Nat.lt_or_ge 22 n with large | small
  · have size : dyadic (1 <<< 53 * 10 ^ n) (-53 + 0) = 10 ^ n := by
      have unit : (2 : ℚ) ^ (53 : Nat) * 2 ^ (-53 + 0 : Int) = 1 := by
        rw [← zpow_natCast, ← zpow_add₀ (by norm_num)]
        norm_num
      rw [dyadic, Nat.shiftLeft_eq, Nat.one_mul, Nat.cast_mul, Nat.cast_pow, Nat.cast_pow,
        mul_right_comm]
      simp only [Nat.cast_ofNat]
      rw [unit, one_mul]
    have long : 2 ^ (53 + n) ≤ 1 <<< 53 * 10 ^ n := by
      rw [Nat.pow_add, Nat.shiftLeft_eq, Nat.one_mul]
      exact Nat.mul_le_mul_left _ (Nat.pow_le_pow_left (by decide) n)
    have filled : 2 ^ 53 ≤ 1 <<< 53 * 10 ^ n :=
      Nat.le_trans (Nat.pow_le_pow_right (by decide) (by omega)) long
    have bits : 53 + n ≤ (1 <<< 53 * 10 ^ n).log2 := (Nat.le_log2 (by omega)).mpr long
    rw [tenTo_eq large h, ← size]
    refine between_pack (by omega) (by omega) (by omega) ?_
    rw [size]
    refine lt_of_le_of_lt (mul_le_mul_of_nonneg_right ?_ slack_pos.le) ten_pow_lt_limit
    exact pow_le_pow_right₀ (by norm_num) h
  · exact between_tenTo_of_le small

/-! ### Products and quotients -/

/-- A product does not overflow that stays below the largest float by one rounding. -/
theorem isFinite_mul {x y : Float} {i j : Int} {a b : ℚ} (hx : Between i a x) (hy : Between j b y)
    (small : a * b * slack < limit) : (x * y).isFinite = true := by
  obtain ⟨sx, m, d, posx, eqx, normalx, -, lex⟩ := hx
  obtain ⟨sy, n, e, posy, eqy, -, -, ley⟩ := hy
  have value : (x * y).toModel = .pack (roundWithAccuracy .binary64 (sx * sy) (m * n) (d + e) .exact) := by
    show Float.Model.pack (UnpackedFloat.mul .binary64 x.toModel.unpack y.toModel.unpack) = _
    rw [eqx, eqy]
    rfl
  show (x * y).toModel.isFinite = true
  rw [value]
  have product : dyadic (m * n) (d + e) ≤ a * b := by
    rw [dyadic_mul]
    exact mul_le_mul lex ley (dyadic_nonneg _ _) ((dyadic_nonneg _ _).trans lex)
  refine isFinite_pack_round ?_ (lt_of_le_of_lt ?_ small)
  · exact Nat.le_trans normalx.1 (Nat.le_mul_of_pos_right m posy)
  · exact mul_le_mul_of_nonneg_right product slack_pos.le

theorem log2_div_add_le {a b : Nat} (divides : b ≤ a) (pos : 0 < b) :
    (a / b).log2 + b.log2 ≤ a.log2 := by
  have filled : a / b ≠ 0 := Nat.ne_of_gt (Nat.div_pos divides pos)
  rw [Nat.le_log2 (by omega), Nat.pow_add]
  exact Nat.le_trans (Nat.mul_le_mul (Nat.log2_self_le filled) (Nat.log2_self_le (by omega)))
    (Nat.div_mul_le_self a b)

/-- Dividing a finite float by a float of at least two gives a finite one. -/
theorem isFinite_div {x y : Float} {low : Int} {high : ℚ} (hx : x.isFinite = true)
    (hy : Between low high y) (large : 1 ≤ low) : (x / y).isFinite = true := by
  obtain ⟨sy, n, d, posy, eqy, normal, ge, -⟩ := hy
  have bits : n.log2 = 52 := log2_of_normal normal
  show (Float.Model.pack (UnpackedFloat.div .binary64 x.toModel.unpack y.toModel.unpack)).isFinite = true
  refine isFinite_pack ?_
  rw [eqy]
  rcases unpack_of_isFinite hx with eqx | ⟨⟨m, e, _⟩, canonical, eqx⟩
  · rw [eqx]
    trivial
  · rw [eqx]
    generalize signOf x = s
    have short : m < 2 ^ 53 := canonical.short
    have le : e ≤ 971 := canonical.high
    have log : m.log2 < 53 := (Nat.log2_lt canonical.pos.ne').mpr short
    have precision : (Format.binary64.mantissaBits : Int) = 53 := rfl
    have least : Format.binary64.minExponent = -1074 := rfl
    simp only [UnpackedFloat.div, divCore, totalExponent, Format.targetExponent, precision, least]
    -- The quotient starts at a power of two that is low enough for all its digits.
    generalize start : min (e - d) (max ((m.log2 : Int) + 1 + e - (n.log2 + 1 + d) - 53) (-1074)) = t
    generalize quotient : m <<< (e - d - t).toNat / n = q
    have size : (q.log2 : Int) + t ≤ 970 + 52 := by
      rcases Nat.eq_zero_or_pos q with rfl | filled
      · rw [Nat.log2_zero]
        omega
      · have shifted : m <<< (e - d - t).toNat < 2 ^ (53 + (e - d - t).toNat) := by
          rw [Nat.shiftLeft_eq, Nat.pow_add]
          exact Nat.mul_lt_mul_of_pos_right short (Nat.two_pow_pos _)
        have divides : n ≤ m <<< (e - d - t).toNat := by
          by_contra less
          rw [← quotient, Nat.div_eq_of_lt (by omega)] at filled
          exact absurd filled (by decide)
        have log := log2_div_add_le divides posy
        have bound := (Nat.log2_lt (by omega)).mpr shifted
        rw [quotient] at log
        omega
    rcases exponent_roundWithAccuracy (s / sy) q t _ with eq | ⟨m', e', pos', eq, le'⟩ <;> rw [eq]
    · trivial
    · show e' ≤ 971
      omega

/-! ### Scaling -/

/-- Scaling down never overflows. -/
theorem isFinite_scaleBy_of_neg {f : Float} {e : Int} (hf : f.isFinite = true) (down : e < 0) :
    (scaleBy f e).isFinite = true := by
  induction f, e using scaleBy.induct with
  | case1 f e near up => omega
  | case2 f e near up =>
      rw [scaleBy, if_pos near, if_neg up]
      exact isFinite_div hf (between_tenTo near) (by omega)
  | case3 f e far zero =>
      rw [scaleBy, if_neg far, if_pos zero]
      exact hf
  | case4 f e far nonzero up => omega
  | case5 f e far nonzero up ih =>
      -- One division by the largest power of ten, and the rest by induction.
      rw [scaleBy, if_neg far, if_neg nonzero, if_neg up]
      exact ih (isFinite_div hf (between_tenTo (Nat.le_refl 308)) (by decide)) (by omega)

theorem unpack_zero : (0 : Nat).toUInt64.toFloat.toModel.unpack = .zero .positive := rfl

theorem isFinite_zero : (0 : Nat).toUInt64.toFloat.isFinite = true := rfl

theorem isFinite_scaleBy_zero {e : Int} (up : 0 ≤ e) :
    (scaleBy (0 : Nat).toUInt64.toFloat e).isFinite = true := by
  by_cases near : e.natAbs ≤ 308
  · obtain ⟨s, m, d, pos, eq, -⟩ := between_tenTo (n := e.toNat) (by omega)
    rw [scaleBy, if_pos near, if_pos up]
    show (Float.Model.pack (UnpackedFloat.mul .binary64 _ (tenTo e.toNat).toModel.unpack)).isFinite = true
    rw [unpack_zero, eq]
    exact isFinite_pack trivial
  · have zero : ((0 : Nat).toUInt64.toFloat == 0.0) = true := rfl
    rw [scaleBy, if_neg near, if_pos zero]
    exact isFinite_zero

/-- Scaling up does not overflow if the exact product stays below the limit by three roundings. -/
theorem isFinite_scaleBy_of_lt {n : Nat} {e : Int} (word : n < UInt64.size) (up : 0 ≤ e)
    (small : n * 10 ^ e.toNat * slack ^ 3 < limit) :
    (scaleBy n.toUInt64.toFloat e).isFinite = true := by
  rcases Nat.eq_zero_or_pos n with rfl | pos
  · exact isFinite_scaleBy_zero up
  · -- Beyond the table of powers even a word of one would reach the limit.
    have near : e.natAbs ≤ 308 := by
      by_contra far
      have factor : (1 : ℚ) ≤ n := by exact_mod_cast pos
      have power : (10 : ℚ) ^ 309 ≤ 10 ^ e.toNat := pow_le_pow_right₀ (by norm_num) (by omega)
      have reached : limit ≤ n * 10 ^ e.toNat * slack ^ 3 := by
        calc limit ≤ 10 ^ 309 := limit_le_ten_pow
          _ ≤ n * 10 ^ e.toNat := power.trans (le_mul_of_one_le_left (by positivity) factor)
          _ ≤ n * 10 ^ e.toNat * slack ^ 3 :=
            le_mul_of_one_le_right (by positivity) (one_le_pow₀ one_le_slack)
      exact absurd small (not_lt.mpr reached)
    rw [scaleBy, if_pos near, if_pos up]
    refine isFinite_mul (between_toFloat pos word) (between_tenTo (by omega)) ?_
    calc n * slack * (10 ^ e.toNat * slack) * slack = n * 10 ^ e.toNat * slack ^ 3 := by ring
      _ < limit := small

end MinerWatch.Decimal
