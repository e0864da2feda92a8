import MinerWatch.Proofs.Decimal.Scientific
/-!
The whole part of a float that was read, as a 64-bit word.

A float becomes a word only if it is finite and not negative: its fraction is dropped, and what is
too large for a word becomes the largest one. For a numeral this means that its number is
rounded to double precision first (`word?_toFloat`).
-/

namespace MinerWatch.Decimal

open Float.Model Float.Model.UnpackedFloat

/-- The word that a float is cut to, if it is finite and not negative. -/
def word? (x : Float) : Option UInt64 :=
  ((some x).filter fun x => x.isFinite && 0.0 ≤ x).map Float.toUInt64

/-- The word that the parts of a float are cut to, as `word?` cuts the float. -/
def wordOf? (u : UnpackedFloat) : Option UInt64 :=
  if u.isFinite && (UnpackedFloat.zero .positive).le u then some u.toUInt64 else none

theorem unpack_pack_zero (s : Sign) : (Float.Model.pack (.zero s)).unpack = .zero s := by
  cases s <;> rfl

theorem unpack_pack_infinity (s : Sign) : (Float.Model.pack (.infinity s)).unpack = .infinity s := by
  cases s <;> rfl

theorem zero_le_iff (x : Float) :
    (0.0 : Float) ≤ x ↔ (UnpackedFloat.zero .positive).le x.toModel.unpack = true := by
  have zero : (0.0 : Float).toModel.unpack = .zero .positive := by
    rw [toModel_zero, unpack_pack_zero]
  show decide (Float.Model.le (0.0 : Float).toModel x.toModel = true) = true ↔ _
  rw [decide_eq_true_eq, ← zero]
  rfl

theorem word?_eq (x : Float) : word? x = wordOf? x.toModel.unpack := by
  have order : decide ((0.0 : Float) ≤ x) = (UnpackedFloat.zero .positive).le x.toModel.unpack :=
    Bool.eq_iff_iff.mpr (decide_eq_true_iff.trans (zero_le_iff x))
  have finite : x.isFinite = x.toModel.unpack.isFinite := rfl
  rw [word?, Option.filter_some, order, finite, wordOf?]
  split <;> rfl

/-! ### Whole parts -/

/-- Cutting a float to an integer drops its fraction. -/
theorem roundToInt_eq (m : Nat) (e : Int) : roundToInt .positive m e = ⌊dyadic m e⌋₊ := by
  have up : (e - 0).toNat = e.toNat := by rw [Int.sub_zero]
  have down : (0 - (e - e.toNat)).toNat = (-e).toNat := by omega
  have parts : roundToInt .positive m e = ((m * 2 ^ e.toNat / 2 ^ (-e).toNat : Nat) : Int) := by
    simp only [roundToInt, decreaseExponent, shiftToExponent, mantissa_shiftRight,
      mantissa_ofMantissaAndAccuracy, Sign.apply, Nat.shiftLeft_eq, up, down]
  rw [parts, ← Nat.floor_div_eq_div (K := ℚ)]
  have value : ((m * 2 ^ e.toNat : Nat) : ℚ) / (2 ^ (-e).toNat : Nat) = dyadic m e := by
    rw [dyadic, zpow_eq_div (by norm_num) e]
    push_cast
    ring
  rw [value]

theorem toNat_ofNatClamp (n : Nat) : (UInt64.ofNatClamp n).toNat = min n (2 ^ 64 - 1) := by
  unfold UInt64.ofNatClamp
  split
  · rename_i fits
    have word : n < 2 ^ 64 := fits
    rw [UInt64.toNat_ofNatLT]
    omega
  · rename_i large
    have word : 2 ^ 64 ≤ n := not_lt.mp large
    rw [UInt64.toNat_ofNatLT]
    show 2 ^ 64 - 1 = _
    omega

/-- The words of the parts of a float. -/
theorem wordOf?_finite (m : Nat) (e : Int) (pos : 0 < m) :
    (wordOf? (.finite .positive m e pos)).map UInt64.toNat = some (min ⌊dyadic m e⌋₊ (2 ^ 64 - 1)) := by
  show some (UInt64.ofNatClamp (roundToInt .positive m e).toNat).toNat = _
  rw [roundToInt_eq, Int.toNat_natCast, toNat_ofNatClamp]

theorem wordOf?_zero (s : Sign) : (wordOf? (.zero s)).map UInt64.toNat = some 0 := by
  cases s <;> rfl

theorem wordOf?_infinity (s : Sign) : wordOf? (.infinity s) = none := by
  cases s <;> rfl

theorem wordOf?_negative (m : Nat) (e : Int) (pos : 0 < m) :
    wordOf? (.finite .negative m e pos) = none := rfl

/-! ### Numerals -/

/-- The number that a numeral denotes. -/
def Numeral.signed (n : Numeral) : ℚ :=
  if n.negative then -n.rat else n.rat

/-- What is left of a number of double precision: its whole part, or the largest word if that is too
large. Nothing is left of a negative number, and of one that no float reaches. -/
def cut? (x : ℚ) : Option Nat :=
  if 0 ≤ x ∧ x < 2 ^ 1024 then some (min ⌊x⌋₊ (2 ^ 64 - 1)) else none

theorem dyadic_lt_limit_iff {b : Binary} (regular : b.Regular) :
    dyadic b.significand b.exponent < 2 ^ 1024 ↔ b.exponent ≤ 971 := by
  have top : (2 : ℚ) ^ 1024 = 2 ^ (1024 : Int) := (zpow_natCast 2 1024).symm
  have unit : (0 : ℚ) < 2 ^ b.exponent := by positivity
  rw [top, dyadic]
  constructor
  · intro small
    by_contra high
    have long : ((2 ^ 52 : Nat) : ℚ) ≤ b.significand := by
      exact_mod_cast regular.le_significand (by omega)
    push_cast at long
    have reached : (2 : ℚ) ^ (52 + b.exponent) < 2 ^ (1024 : Int) := by
      rw [show (52 : Int) = (52 : Nat) from rfl, Binary.two_zpow_add]
      exact (mul_le_mul_of_nonneg_right (by exact_mod_cast long) unit.le).trans_lt small
    have := Binary.lt_of_zpow_lt reached
    omega
  · intro high
    have short : (b.significand : ℚ) < 2 ^ 53 := by exact_mod_cast regular.short
    calc (b.significand : ℚ) * 2 ^ b.exponent < 2 ^ 53 * 2 ^ b.exponent :=
          mul_lt_mul_of_pos_right short unit
      _ = 2 ^ (53 + b.exponent) := (Binary.two_zpow_add 53 _).symm
      _ ≤ 2 ^ (1024 : Int) := zpow_le_zpow_right₀ (by norm_num) (by omega)

theorem dyadic_pos {b : Binary} (regular : b.Regular) : 0 < dyadic b.significand b.exponent := by
  have filled : (0 : ℚ) < b.significand := by exact_mod_cast regular.pos
  exact mul_pos filled (by positivity)

theorem cut?_of_neg {x : ℚ} (neg : x < 0) : cut? x = none :=
  if_neg fun h => absurd h.1 (not_le.mpr neg)

/-- **A numeral is cut after it was rounded to double precision.** -/
theorem word?_toFloat {n : Numeral} {x : ℚ} (rounds : RoundsTo n.rat x) :
    (word? n.toFloat).map UInt64.toNat = cut? (if n.negative then -x else x) := by
  have float : n.toFloat = if n.negative then -nearest (value (n.whole ++ n.fraction)) n.power
      else nearest (value (n.whole ++ n.fraction)) n.power := rfl
  have neg (x : Float) : (-x).toModel = .pack x.toModel.unpack.neg := rfl
  rw [float, Numeral.rat] at *
  generalize value (n.whole ++ n.fraction) = c at rounds ⊢
  cases rounds with
  | zero tiny =>
      have size := toModel_nearest_of_tiny tiny
      have zero : cut? 0 = some 0 := by simp [cut?]
      split <;> rw [word?_eq]
      · rw [neg, size, unpack_pack_zero, neg_zero, zero]
        exact (congrArg _ (congrArg wordOf? (unpack_pack_zero .negative))).trans (wordOf?_zero _)
      · rw [size, unpack_pack_zero, zero, wordOf?_zero]
  | @binary b regular contains =>
      have size := toModel_nearest_of_contains (contains.coefficient_pos regular.pos) regular contains
      have filled := dyadic_pos regular
      rcases le_or_gt b.exponent 971 with high | huge
      · have canonical := regular.canonical high
        split <;> rw [word?_eq]
        · rw [neg, size, canonical.unpack_pack, cut?_of_neg (neg_neg_of_pos filled)]
          exact congrArg _ ((congrArg wordOf? (canonical.unpack_pack .negative)).trans
            (wordOf?_negative ..))
        · rw [size, canonical.unpack_pack, wordOf?_finite, cut?,
            if_pos ⟨filled.le, (dyadic_lt_limit_iff regular).mpr high⟩]
      · have size := size.trans (pack_of_gt _ _ huge)
        split <;> rw [word?_eq]
        · rw [neg, size, unpack_pack_infinity, cut?_of_neg (neg_neg_of_pos filled)]
          exact congrArg _ ((congrArg wordOf? (unpack_pack_infinity .negative)).trans
            (wordOf?_infinity _))
        · have beyond : ¬ dyadic b.significand b.exponent < 2 ^ 1024 := fun small =>
            absurd ((dyadic_lt_limit_iff regular).mp small) (by omega)
          rw [size, unpack_pack_infinity, wordOf?_infinity, cut?, if_neg fun h => beyond h.2]
          rfl

end MinerWatch.Decimal
