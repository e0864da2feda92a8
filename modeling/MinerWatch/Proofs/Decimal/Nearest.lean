import MinerWatch.Decimal.Style
import MinerWatch.Proofs.Decimal.Rounding
/-!
Rounding gives the nearest float.

`Represents` says which number a significand with its two extra bits stands for, and shifting keeps
it. So an operation whose exact result lies in the interval of a float, with the ends that the float
owns, rounds to just that float (`roundWithAccuracy_of_contains`).
-/

namespace MinerWatch.Decimal

open Float.Model Float.Model.UnpackedFloat

/-! ### Significands with a fraction -/

/-- The number that a significand stands for together with the bits behind it. The first bit is half
a unit, the other one tells whether anything is left. -/
def Represents (em : ExtendedMantissa) (v : ℚ) : Prop :=
  if em.roundBit then
    if em.stickyBit then (em.mantissa : ℚ) + 1 / 2 < v ∧ v < em.mantissa + 1
    else v = em.mantissa + 1 / 2
  else
    if em.stickyBit then (em.mantissa : ℚ) < v ∧ v < em.mantissa + 1 / 2
    else v = em.mantissa

theorem represents_exact (m : Nat) : Represents (.ofMantissaAndAccuracy m .exact) m := rfl

/-- The two bits tell where a proper fraction lies. -/
theorem represents_fraction (q : Nat) {r b : Nat} (less : r < b) :
    Represents (.ofMantissaAndAccuracy q (accuracyOfFraction r b)) (q + r / b : ℚ) := by
  have divisor : (0 : ℚ) < b := by exact_mod_cast Nat.zero_lt_of_lt less
  have below : (r : ℚ) / b < 1 := by
    rw [div_lt_one divisor]
    exact_mod_cast less
  rw [accuracyOfFraction]
  split
  · rename_i whole
    rw [whole, Nat.cast_zero, zero_div, add_zero]
    exact represents_exact q
  · rename_i rest
    have above : 0 < (r : ℚ) / b := div_pos (by exact_mod_cast Nat.pos_of_ne_zero rest) divisor
    cases order : compare (2 * r) b with
    | lt =>
        have half : (r : ℚ) / b < 1 / 2 := by
          have lt : (2 * r : ℚ) < b := by exact_mod_cast Nat.compare_eq_lt.mp order
          rw [div_lt_div_iff₀ divisor (by norm_num)]
          linarith
        show (q : ℚ) < q + r / b ∧ q + r / b < (q + 1 / 2 : ℚ)
        constructor <;> linarith
    | eq =>
        have half : (r : ℚ) / b = 1 / 2 := by
          have eq : (2 * r : ℚ) = b := by exact_mod_cast Nat.compare_eq_eq.mp order
          rw [div_eq_div_iff divisor.ne' (by norm_num)]
          linarith
        show (q + r / b : ℚ) = q + 1 / 2
        rw [half]
    | gt =>
        have half : 1 / 2 < (r : ℚ) / b := by
          have gt : (b : ℚ) < 2 * r := by exact_mod_cast Nat.compare_eq_gt.mp order
          rw [div_lt_div_iff₀ (by norm_num) divisor]
          linarith
        show (q + 1 / 2 : ℚ) < q + r / b ∧ (q + r / b : ℚ) < q + 1
        constructor <;> linarith

/-- A division with remainder represents the quotient. -/
theorem represents_div (a : Nat) {b : Nat} (pos : 0 < b) :
    Represents (.ofMantissaAndAccuracy (a / b) (accuracyOfFraction (a % b) b)) (a / b : ℚ) := by
  have divisor : (b : ℚ) ≠ 0 := by exact_mod_cast pos.ne'
  have parts : (b : ℚ) * (a / b : Nat) + (a % b : Nat) = a := by exact_mod_cast Nat.div_add_mod a b
  have value : (a : ℚ) / b = (a / b : Nat) + (a % b : Nat) / b := by
    rw [← parts]
    field_simp
  rw [value]
  exact represents_fraction _ (Nat.mod_lt a pos)

theorem Represents.shiftRightOne {em : ExtendedMantissa} {v : ℚ} (h : Represents em v) :
    Represents em.shiftRightOne (v / 2) := by
  obtain ⟨m, round, sticky⟩ := em
  have parts : (2 : ℚ) * (m / 2 : Nat) + (m % 2 : Nat) = m := by exact_mod_cast Nat.div_add_mod m 2
  -- The bit that is shifted out becomes the half, and the bits behind it are merged.
  rcases Nat.mod_two_eq_zero_or_one m with bit | bit <;> rw [bit] at parts <;>
    cases round <;> cases sticky <;>
    simp only [Represents, ExtendedMantissa.shiftRightOne, bit, Nat.cast_zero, Nat.cast_one,
      Bool.or_false, Bool.or_true, Bool.false_eq_true, bne_self_eq_false, bne_iff_ne, ne_eq,
      one_ne_zero, not_false_eq_true, if_true, if_false] at h parts ⊢ <;>
    first
      | linarith
      | exact ⟨by linarith [h.1], by linarith [h.2]⟩
      | exact ⟨by linarith, by linarith⟩

theorem Represents.shiftRight {em : ExtendedMantissa} {v : ℚ} (h : Represents em v) (n : Nat) :
    Represents (em >>> n) (v / 2 ^ n) := by
  show Represents (n.repeat ExtendedMantissa.shiftRightOne em) _
  induction n with
  | zero => rwa [pow_zero, div_one]
  | succ n ih =>
      rw [Nat.repeat, pow_succ, ← div_div]
      exact ih.shiftRightOne

theorem Represents.bounds {em : ExtendedMantissa} {v : ℚ} (h : Represents em v) :
    em.mantissa ≤ v ∧ v < em.mantissa + 1 := by
  obtain ⟨m, round, sticky⟩ := em
  cases round <;> cases sticky <;>
    simp only [Represents, Bool.false_eq_true, if_true, if_false] at h ⊢
  · exact ⟨h.ge, by linarith⟩
  · exact ⟨h.1.le, by linarith [h.2]⟩
  · constructor <;> linarith
  · exact ⟨by linarith [h.1], h.2⟩

/-- What a significand represents has the binade of the significand. -/
theorem Represents.binade {m : Nat} {acc : Accuracy} {v : ℚ} (pos : 0 < m)
    (h : Represents (.ofMantissaAndAccuracy m acc) v) (e : Int) :
    2 ^ (m.log2 + e) ≤ v * 2 ^ e ∧ v * 2 ^ e < 2 ^ (m.log2 + e + 1) := by
  obtain ⟨ge, less⟩ := h.bounds
  rw [mantissa_ofMantissaAndAccuracy] at ge less
  have low : ((2 ^ m.log2 : Nat) : ℚ) ≤ m := by exact_mod_cast Nat.log2_self_le pos.ne'
  have high : (m : ℚ) + 1 ≤ (2 ^ (m.log2 + 1) : Nat) := by exact_mod_cast Nat.lt_log2_self
  push_cast at low high
  rw [add_right_comm, zpow_add₀ (by norm_num), zpow_add₀ (by norm_num), zpow_natCast]
  constructor
  · exact mul_le_mul_of_nonneg_right (low.trans ge) (by positivity)
  · exact mul_lt_mul_of_pos_right (less.trans_le (by exact_mod_cast high)) (by positivity)

/-- The whole number is nearest to the given one, and even if another is as near. -/
structure NearestTo (r : Nat) (v : ℚ) : Prop where
  ge : r - 1 / 2 ≤ v
  le : v ≤ r + 1 / 2
  tie : r % 2 = 1 → r - 1 / 2 < v ∧ v < r + 1 / 2

/-- **A significand is rounded to the nearest whole number**, and to the even one of two. -/
theorem Represents.roundedMantissa {em : ExtendedMantissa} {v : ℚ} (h : Represents em v) {r : Nat}
    (near : NearestTo r v) : em.roundedMantissa = r := by
  obtain ⟨m, round, sticky⟩ := em
  obtain ⟨ge, le, tie⟩ := near
  have between {a b : Nat} (above : (a : ℚ) < r + 1) (below : (r : ℚ) < b + 1) : a ≤ r ∧ r ≤ b :=
    ⟨Nat.le_of_lt_succ (by exact_mod_cast above), Nat.le_of_lt_succ (by exact_mod_cast below)⟩
  cases round <;> cases sticky <;>
    simp only [Represents, Bool.false_eq_true, if_true, if_false, ExtendedMantissa.roundedMantissa,
      ExtendedMantissa.accuracy, Accuracy.roundToNearestEven] at h ⊢
  · obtain ⟨low, high⟩ := between (a := m) (b := m) (by linarith) (by linarith)
    omega
  · obtain ⟨low, high⟩ := between (a := m) (b := m) (by linarith [h.1]) (by linarith [h.2])
    omega
  · -- A tie, which an odd number does not win.
    obtain ⟨low, high⟩ := between (a := m) (b := m + 1) (by linarith) (by push_cast; linarith)
    have even : r % 2 = 0 := by
      by_contra odd
      obtain ⟨above, below⟩ := tie (by omega)
      have more : (m : ℚ) < r := by linarith
      have less : (r : ℚ) < (m + 1 : Nat) := by push_cast; linarith
      have more : m < r := by exact_mod_cast more
      have less : r < m + 1 := by exact_mod_cast less
      omega
    omega
  · obtain ⟨low, high⟩ := between (a := m + 1) (b := m + 1) (by push_cast; linarith [h.1])
      (by push_cast; linarith [h.2])
    omega

/-! ### The interval of a float -/

namespace Binary

/-- The upper end of the interval of reals that round to a float. -/
def upper (x : Binary) : ℚ := dyadic (4 * x.significand + 2) (x.exponent - 2)

/-- The lower end of that interval. -/
def lower (x : Binary) : ℚ :=
  dyadic (4 * x.significand - if x.narrowBelow then 1 else 2) (x.exponent - 2)

/-- The number lies in the interval. An odd significand leaves its ends to the neighbours. -/
structure Contains (x : Binary) (v : ℚ) : Prop where
  ge : x.lower ≤ v
  le : v ≤ x.upper
  inner : x.significand % 2 = 1 → x.lower < v ∧ v < x.upper

/-- The parts are those of a finite float other than zero. -/
structure Canonical (x : Binary) : Prop where
  pos : 0 < x.significand
  short : x.significand < 2 ^ 53
  low : -1074 ≤ x.exponent
  high : x.exponent ≤ 971
  full : 2 ^ 52 ≤ x.significand ∨ x.exponent = -1074
  narrow : x.narrowBelow = true ↔ x.significand = 2 ^ 52 ∧ -1074 < x.exponent

/-- The parts are those of a float other than zero, or would be if there were no largest one. -/
structure Regular (x : Binary) : Prop where
  pos : 0 < x.significand
  short : x.significand < 2 ^ 53
  low : -1074 ≤ x.exponent
  full : 2 ^ 52 ≤ x.significand ∨ x.exponent = -1074
  narrow : x.narrowBelow = true ↔ x.significand = 2 ^ 52 ∧ -1074 < x.exponent

variable {x : Binary} {v : ℚ}

theorem Canonical.regular (canonical : x.Canonical) : x.Regular :=
  ⟨canonical.pos, canonical.short, canonical.low, canonical.full, canonical.narrow⟩

theorem Regular.canonical (regular : x.Regular) (high : x.exponent ≤ 971) : x.Canonical :=
  ⟨regular.pos, regular.short, regular.low, high, regular.full, regular.narrow⟩

/-- The interval of a float reaches half a unit of its last place up. -/
theorem upper_eq (x : Binary) : x.upper = (x.significand + 1 / 2) * 2 ^ x.exponent := by
  rw [upper, dyadic, zpow_sub₀ (by norm_num)]
  push_cast
  ring

/-- The interval of a float reaches half a unit of its last place down, or a quarter. -/
theorem lower_eq (pos : 0 < x.significand) :
    x.lower = (x.significand - if x.narrowBelow then 1 / 4 else 1 / 2) * 2 ^ x.exponent := by
  rw [lower, dyadic, zpow_sub₀ (by norm_num)]
  split <;> rw [Nat.cast_sub (by omega)] <;> push_cast <;> ring

/-- A float lies in its own interval. -/
theorem contains_self (pos : 0 < x.significand) :
    x.Contains (dyadic x.significand x.exponent) := by
  have unit : (0 : ℚ) < 2 ^ x.exponent := by positivity
  have above : x.lower < dyadic x.significand x.exponent := by
    rw [lower_eq pos, dyadic]
    refine mul_lt_mul_of_pos_right ?_ unit
    split <;> linarith
  have below : dyadic x.significand x.exponent < x.upper := by
    rw [upper_eq, dyadic]
    exact mul_lt_mul_of_pos_right (by linarith) unit
  exact ⟨above.le, below.le, fun _ => ⟨above, below⟩⟩

theorem Regular.wide (regular : x.Regular) (h : x.significand ≠ 2 ^ 52 ∨ x.exponent = -1074) :
    x.narrowBelow = false := by
  rw [Bool.eq_false_iff]
  intro narrow
  have := regular.narrow.mp narrow
  omega

/-- A float is the nearest one to all of its interval. -/
theorem Contains.nearest (h : x.Contains v) (pos : 0 < x.significand) :
    NearestTo x.significand (v / 2 ^ x.exponent) := by
  have unit : (0 : ℚ) < 2 ^ x.exponent := by positivity
  have lower : (x.significand - 1 / 2) * 2 ^ x.exponent ≤ x.lower := by
    rw [lower_eq pos]
    refine mul_le_mul_of_nonneg_right ?_ unit.le
    split <;> linarith
  constructor
  · rw [le_div_iff₀ unit]
    exact lower.trans h.ge
  · rw [div_le_iff₀ unit, ← upper_eq]
    exact h.le
  · intro odd
    rw [lt_div_iff₀ unit, div_lt_iff₀ unit, ← upper_eq]
    exact ⟨lower.trans_lt (h.inner odd).1, (h.inner odd).2⟩

theorem two_zpow_add (n : Nat) (e : Int) : (2 : ℚ) ^ (n + e) = 2 ^ n * 2 ^ e := by
  rw [zpow_add₀ (by norm_num), zpow_natCast]

/-- The interval ends before the next binade. -/
theorem Contains.lt (h : x.Contains v) (regular : x.Regular) : v < 2 ^ (53 + x.exponent) := by
  have unit : (0 : ℚ) < 2 ^ x.exponent := by positivity
  have top : (2 : ℚ) ^ (53 + x.exponent) = 2 ^ 53 * 2 ^ x.exponent := two_zpow_add 53 _
  have short : (x.significand : ℚ) + 1 ≤ 2 ^ 53 := by exact_mod_cast regular.short
  calc v ≤ (x.significand + 1 / 2) * 2 ^ x.exponent := x.upper_eq ▸ h.le
    _ < 2 ^ 53 * 2 ^ x.exponent := mul_lt_mul_of_pos_right (by linarith) unit
    _ = 2 ^ (53 + x.exponent) := top.symm

/-- Above the smallest binade the interval starts in the binade of the float, unless that float is
the first of it: then it starts in the one before, where the float is the next after all others. -/
theorem Contains.gt (h : x.Contains v) (regular : x.Regular) (normal : -1074 < x.exponent) :
    2 ^ (52 + x.exponent) < v ∨
      x.significand = 2 ^ 52 ∧ (2 ^ 53 - 1 / 2) * 2 ^ (x.exponent - 1) ≤ v := by
  have unit : (0 : ℚ) < 2 ^ x.exponent := by positivity
  have long : 2 ^ 52 ≤ x.significand := by
    rcases regular.full with long | least
    · exact long
    · omega
  have lower := lower_eq regular.pos
  rcases Nat.eq_or_lt_of_le long with first | later
  · right
    have narrow : x.narrowBelow = true := regular.narrow.mpr ⟨first.symm, normal⟩
    refine ⟨first.symm, le_trans (le_of_eq ?_) h.ge⟩
    rw [lower, narrow, ← first, zpow_sub₀ (by norm_num)]
    push_cast
    norm_num
    ring
  · left
    have wide : x.narrowBelow = false := regular.wide (.inl (by omega))
    have more : (2 : ℚ) ^ 52 + 1 ≤ x.significand := by exact_mod_cast later
    have top : (2 : ℚ) ^ (52 + x.exponent) = 2 ^ 52 * 2 ^ x.exponent := two_zpow_add 52 _
    refine lt_of_lt_of_le ?_ h.ge
    rw [lower, wide, top]
    refine mul_lt_mul_of_pos_right ?_ unit
    rw [if_neg Bool.false_ne_true]
    linarith

theorem lt_of_zpow_lt {i j : Int} (h : (2 : ℚ) ^ i < 2 ^ j) : i < j :=
  (zpow_lt_zpow_iff_right₀ (by norm_num)).mp h

/-- The binade of a number in the interval tells the power of two of the float, or the one below it:
then the float comes right after the numbers of that binade. -/
theorem Contains.place (h : x.Contains v) (regular : x.Regular) {k : Int} (ge : 2 ^ k ≤ v)
    (less : v < 2 ^ (k + 1)) :
    max (k - 52) (-1074) = x.exponent ∨
      max (k - 52) (-1074) = x.exponent - 1 ∧ x.significand = 2 ^ 52 ∧
        NearestTo (2 ^ 53) (v / 2 ^ (x.exponent - 1)) := by
  have low := regular.low
  have notAbove : k < 53 + x.exponent := lt_of_zpow_lt (ge.trans_lt (h.lt regular))
  rcases Int.lt_or_eq_of_le low with normal | least
  · rcases h.gt regular normal with above | ⟨edge, near⟩
    · have := lt_of_zpow_lt (above.trans less)
      left
      omega
    · have unit : (0 : ℚ) < 2 ^ (x.exponent - 1) := by positivity
      have start : (2 : ℚ) ^ (52 + (x.exponent - 1)) < v := by
        have top : (2 : ℚ) ^ (52 + (x.exponent - 1)) = 2 ^ 52 * 2 ^ (x.exponent - 1) :=
          two_zpow_add 52 _
        rw [top]
        exact (mul_lt_mul_of_pos_right (by norm_num) unit).trans_le near
      have := lt_of_zpow_lt (start.trans less)
      by_cases same : max (k - 52) (-1074) = x.exponent
      · exact .inl same
      · have upper : v / 2 ^ (x.exponent - 1) < 2 ^ 53 := by
          rw [div_lt_iff₀ unit]
          refine less.trans_le ?_
          have top : (2 : ℚ) ^ (53 + (x.exponent - 1)) = 2 ^ 53 * 2 ^ (x.exponent - 1) :=
            two_zpow_add 53 _
          rw [← top]
          exact zpow_le_zpow_right₀ (by norm_num) (by omega)
        refine .inr ⟨by omega, edge, ?_, ?_, fun odd => absurd odd (by decide)⟩
        · rw [le_div_iff₀ unit]
          exact_mod_cast near
        · push_cast
          linarith
  · left
    omega

end Binary

/-! ### The parts of a float -/

theorem toNat_unpackExponent (x : Float) :
    (@unpackExponent .binary64 x.toBits.toBitVec).toNat = ((x.toBits >>> 52) &&& 0x7FF).toNat := by
  have mask : (0x7FF : UInt64).toNat = 2 ^ 11 - 1 := rfl
  rw [UInt64.toNat_and, UInt64.toNat_shiftRight, mask, Nat.and_two_pow_sub_one_eq_mod]
  simp [unpackExponent, BitVec.extractLsb]

theorem toNat_unpackMantissa (x : Float) :
    (@unpackMantissa .binary64 x.toBits.toBitVec).toNat = (x.toBits &&& 0xFFFFFFFFFFFFF).toNat := by
  have mask : (0xFFFFFFFFFFFFF : UInt64).toNat = 2 ^ 52 - 1 := rfl
  rw [UInt64.toNat_and, mask, Nat.and_two_pow_sub_one_eq_mod]
  simp [unpackMantissa, BitVec.extractLsb]

def signOf (x : Float) : Sign :=
  if isNegative x then .negative else .positive

theorem ofBitVec_unpackSign (x : Float) :
    Sign.ofBitVec (@unpackSign .binary64 x.toBits.toBitVec) = signOf x := by
  have bit : (@unpackSign .binary64 x.toBits.toBitVec).toNat = (x.toBits >>> 63).toNat := by
    have word := x.toBits.toNat_lt
    have small : x.toBits.toNat >>> 63 ≤ 1 := by
      rw [Nat.shiftRight_eq_div_pow]
      omega
    rw [UInt64.toNat_shiftRight]
    simpa [unpackSign, BitVec.extractLsb] using small
  by_cases negative : x.toBits >>> 63 = 1
  · have sign : @unpackSign .binary64 x.toBits.toBitVec = 1#1 := by
      apply BitVec.eq_of_toNat_eq
      rw [bit, negative]
      rfl
    rw [sign, signOf, isNegative, if_pos (decide_eq_true negative)]
    rfl
  · have sign : @unpackSign .binary64 x.toBits.toBitVec = 0#1 := by
      apply BitVec.eq_of_toNat_eq
      have range : (@unpackSign .binary64 x.toBits.toBitVec).toNat < 2 := BitVec.isLt _
      have ne : (x.toBits >>> 63).toNat ≠ 1 := fun one => negative (UInt64.toNat_inj.mp one)
      show _ = 0
      omega
    rw [sign, signOf, isNegative, if_neg (by simpa using negative)]
    rfl

theorem pack_unpack_model (x : Float.Model) : Float.Model.pack x.unpack = x := by
  obtain ⟨bits, valid⟩ := x
  have same := pack_unpack_of_valid valid
  simp only [Float.Model.pack, Float.Model.unpack]
  congr 1
  exact UInt64.toBitVec_inj.mp same

/-- The bits of a finite float have the parts of one, or those of zero. -/
theorem Binary.canonical_ofBits {x : Float} (h : x.isFinite = true)
    (nonzero : (Binary.ofBits x.toBits).significand ≠ 0) : (Binary.ofBits x.toBits).Canonical := by
  have some := (isFinite_unpack_iff x.toBits.toBitVec).mp h
  have field : ((x.toBits >>> 52) &&& 0x7FF).toNat < 2047 := by
    have range : (@unpackExponent .binary64 x.toBits.toBitVec).toNat < 2048 := BitVec.isLt _
    have top : (@unpackExponent .binary64 x.toBits.toBitVec).toNat ≠ 2047 := fun eq =>
      some (BitVec.eq_of_toNat_eq eq)
    rw [← toNat_unpackExponent]
    omega
  have fraction : (x.toBits &&& 0xFFFFFFFFFFFFF).toNat < 2 ^ 52 := by
    rw [← toNat_unpackMantissa]
    exact BitVec.isLt _
  unfold Binary.ofBits at nonzero ⊢
  generalize ((x.toBits >>> 52) &&& 0x7FF).toNat = e at field nonzero ⊢
  generalize (x.toBits &&& 0xFFFFFFFFFFFFF).toNat = f at fraction nonzero ⊢
  simp only [leadingBit] at nonzero ⊢
  split at nonzero
  · rename_i least
    rw [if_pos least]
    have filled : 0 < f := Nat.pos_of_ne_zero nonzero
    exact ⟨filled, Nat.lt_trans fraction (by decide), Int.le_refl _,
      (by decide : (-1074 : Int) ≤ 971), .inr rfl, by simp⟩
  · rename_i normal
    rw [if_neg normal]
    refine ⟨by simp only; omega, by simp only; omega, by simp only; omega, by simp only; omega,
      .inl (by simp only; omega), ?_⟩
    simp only [Bool.and_eq_true, decide_eq_true_eq]
    omega

/-- A finite float without a significand is a zero. -/
theorem unpack_of_zero {x : Float} (zero : (Binary.ofBits x.toBits).significand = 0) :
    x.toModel.unpack = .zero (signOf x) := by
  have noExponent : ((x.toBits >>> 52) &&& 0x7FF).toNat = 0 := by
    by_contra filled
    rw [Binary.ofBits, if_neg filled] at zero
    exact absurd zero (by simp [leadingBit])
  rw [Binary.ofBits, if_pos noExponent] at zero
  have exponent : @unpackExponent .binary64 x.toBits.toBitVec = 0#_ :=
    BitVec.eq_of_toNat_eq ((toNat_unpackExponent x).trans noExponent)
  have mantissa : @unpackMantissa .binary64 x.toBits.toBitVec = 0#_ :=
    BitVec.eq_of_toNat_eq ((toNat_unpackMantissa x).trans zero)
  have some : ¬ (0#11 = -1#11) := by decide
  show UnpackedFloat.unpack .binary64 x.toBits.toBitVec = _
  simp only [UnpackedFloat.unpack, exponent, mantissa, ofBitVec_unpackSign, if_neg some, if_true,
    dif_pos]

/-- A finite float with a significand is unpacked to its sign, significand and exponent. -/
theorem unpack_of_significand {x : Float} (h : x.isFinite = true)
    (nonzero : (Binary.ofBits x.toBits).significand ≠ 0) :
    x.toModel.unpack = .finite (signOf x) (Binary.ofBits x.toBits).significand
      (Binary.ofBits x.toBits).exponent (Nat.pos_of_ne_zero nonzero) := by
  have some := (isFinite_unpack_iff x.toBits.toBitVec).mp h
  show UnpackedFloat.unpack .binary64 x.toBits.toBitVec = _
  by_cases least : ((x.toBits >>> 52) &&& 0x7FF).toNat = 0
  · have exponent : @unpackExponent .binary64 x.toBits.toBitVec = 0#_ :=
      BitVec.eq_of_toNat_eq ((toNat_unpackExponent x).trans least)
    have mantissa : @unpackMantissa .binary64 x.toBits.toBitVec ≠ 0#_ := by
      intro zero
      apply nonzero
      rw [Binary.ofBits, if_pos least, ← toNat_unpackMantissa, zero]
      rfl
    have some : ¬ (0#11 = -1#11) := by decide
    simp only [UnpackedFloat.unpack, exponent, mantissa, ofBitVec_unpackSign, if_neg some, if_true,
      dif_neg, not_false_eq_true, Binary.ofBits, if_pos least, toNat_unpackMantissa]
    rfl
  · have filled : @unpackExponent .binary64 x.toBits.toBitVec ≠ 0#_ := by
      intro zero
      rw [← toNat_unpackExponent, zero] at least
      exact least rfl
    obtain ⟨pos, eq⟩ := unpack_of_exponent _ some filled
    rw [eq]
    simp only [ofBitVec_unpackSign, toNat_unpackExponent, Binary.ofBits, if_neg least]
    congr 1
    exact (toNat_implicit _).trans (congrArg _ (toNat_unpackMantissa x))

/-- What a finite float denotes: zero, or a number that has the parts of a float. -/
theorem unpack_of_isFinite {x : Float} (h : x.isFinite = true) :
    x.toModel.unpack = .zero (signOf x) ∨
      ∃ (b : Binary) (canonical : b.Canonical),
        x.toModel.unpack = .finite (signOf x) b.significand b.exponent canonical.pos := by
  by_cases zero : (Binary.ofBits x.toBits).significand = 0
  · exact .inl (unpack_of_zero zero)
  · exact .inr ⟨_, Binary.canonical_ofBits h zero, unpack_of_significand h zero⟩

/-- The parts of a float are packed without loss. -/
theorem Binary.Canonical.unpack_pack {x : Binary} (canonical : x.Canonical) (s : Sign) :
    (Float.Model.pack (.finite s x.significand x.exponent canonical.pos)).unpack =
      .finite s x.significand x.exponent canonical.pos := by
  rcases Nat.lt_or_ge x.significand (2 ^ 52) with short | long
  · have least : x.exponent = -1074 := canonical.full.resolve_left (by omega)
    have log : x.significand.log2 < 52 := (Nat.log2_lt canonical.pos.ne').mpr short
    have size : (BitVec.ofNat 52 x.significand).toNat = x.significand := by
      rw [BitVec.toNat_ofNat]
      exact Nat.mod_eq_of_lt short
    have filled : BitVec.ofNat 52 x.significand ≠ 0#52 := by
      intro zero
      rw [zero] at size
      exact canonical.pos.ne size
    have some : ¬ (0#11 = -1#11) := by decide
    show UnpackedFloat.unpack .binary64 (UnpackedFloat.pack .binary64 _) = _
    rw [pack_of_le s canonical.pos canonical.high, if_neg (by omega)]
    simp only [UnpackedFloat.unpack, unpackSign_packComponents, unpackExponent_packComponents,
      unpackMantissa_packComponents, Sign.ofBitVec_toBitVec]
    rw [if_neg some, if_pos trivial, dif_neg filled]
    congr 1
    exact least.symm
  · exact unpack_pack_normal s canonical.pos ⟨long, canonical.short⟩ canonical.low canonical.high

/-! ### Rounding -/

theorem roundWithAccuracy_eq_of {sign : Sign} {m r k : Nat} {e : Int} {acc : Accuracy}
    (rounded : roundedOf m e acc = r) (shift : shiftOf r (e + shiftOf m e) = k)
    (pos : 0 < r / 2 ^ k) :
    roundWithAccuracy .binary64 sign m e acc = .finite sign (r / 2 ^ k) (e + shiftOf m e + k) pos := by
  subst rounded shift
  rw [roundWithAccuracy_eq_shifted, dif_neg pos.ne']

theorem roundedOf_of_nearest {m r : Nat} {e : Int} {acc : Accuracy} {v : ℚ}
    (exact_ : Represents (.ofMantissaAndAccuracy m acc) v)
    (near : NearestTo r (v * 2 ^ e / 2 ^ (e + shiftOf m e))) : roundedOf m e acc = r := by
  have shifted : v / 2 ^ shiftOf m e = v * 2 ^ e / 2 ^ (e + shiftOf m e) := by
    rw [zpow_add₀ (by norm_num), zpow_natCast, mul_comm v, mul_div_mul_left _ _ (by positivity)]
  rw [← shifted] at near
  exact (exact_.shiftRight _).roundedMantissa near

/-- **An operation rounds to the float whose interval has its exact result.** -/
theorem roundWithAccuracy_of_contains (sign : Sign) {m : Nat} {e : Int} {acc : Accuracy} {v : ℚ}
    (long : 2 ^ 52 ≤ m) (exact_ : Represents (.ofMantissaAndAccuracy m acc) v) {x : Binary}
    (regular : x.Regular) (contains : x.Contains (v * 2 ^ e)) :
    roundWithAccuracy .binary64 sign m e acc =
      .finite sign x.significand x.exponent regular.pos := by
  have bits : 52 ≤ m.log2 := (Nat.le_log2 (by omega)).mpr long
  have first := shiftOf_eq m e
  have low := regular.low
  have start : e + shiftOf m e = max (m.log2 + e - 52) (-1074) := by omega
  obtain ⟨ge, less⟩ := exact_.binade (by omega) e
  rcases contains.place regular ge less with same | ⟨below, edge, near⟩
  · rw [← start] at same
    have rounded : roundedOf m e acc = x.significand := by
      apply roundedOf_of_nearest exact_
      rw [same]
      exact contains.nearest regular.pos
    have log : x.significand.log2 < 53 := (Nat.log2_lt regular.pos.ne').mpr regular.short
    have second := shiftOf_eq x.significand (e + shiftOf m e)
    have none : shiftOf x.significand (e + shiftOf m e) = 0 := by omega
    have unit : x.significand / 2 ^ 0 = x.significand := by rw [Nat.pow_zero, Nat.div_one]
    rw [roundWithAccuracy_eq_of rounded none (by rw [unit]; exact regular.pos)]
    congr 1
    omega
  · -- Just below the binade of the float, rounding carries into it.
    rw [← start] at below
    have rounded : roundedOf m e acc = 2 ^ 53 := by
      apply roundedOf_of_nearest exact_
      rw [below]
      exact near
    have second := shiftOf_eq (2 ^ 53) (e + shiftOf m e)
    rw [Nat.log2_two_pow] at second
    have one : shiftOf (2 ^ 53) (e + shiftOf m e) = 1 := by omega
    rw [roundWithAccuracy_eq_of rounded one (by decide)]
    congr 1
    · rw [edge]
      decide
    · omega

end MinerWatch.Decimal
