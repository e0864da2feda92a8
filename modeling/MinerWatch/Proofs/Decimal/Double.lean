import MinerWatch.Proofs.Decimal.Nearest
/-!
Numbers of double precision, and rounding to them.

`RoundsTo` says what a number is rounded to by the interval it lies in, as `roundWithAccuracy` does,
except that the powers of two have no upper end. It is a nearest number of double precision
(`RoundsTo.abs_sub_le`), so it lies on the same side of every such number. Whole numbers up to
`2 ^ 53` are among them: below, rounding moves a number at most to the next whole one, and
only if it is very close to it.
-/

namespace MinerWatch.Decimal

/-! ### Nearest whole numbers -/

theorem exists_nearestTo {v : ℚ} (nonneg : 0 ≤ v) : ∃ r, NearestTo r v := by
  have ge := Nat.floor_le nonneg
  have lt := Nat.lt_floor_add_one v
  generalize ⌊v⌋₊ = n at ge lt
  rcases lt_trichotomy v (n + 1 / 2) with below | tie | above
  · exact ⟨n, by linarith, below.le, fun _ => ⟨by linarith, below⟩⟩
  · -- Of the two that are as near, the even one.
    rcases Nat.mod_two_eq_zero_or_one n with even | odd
    · exact ⟨n, by linarith, tie.le, fun odd => absurd odd (by omega)⟩
    · exact ⟨n + 1, by push_cast; linarith, by push_cast; linarith, fun odd => absurd odd (by omega)⟩
  · exact ⟨n + 1, by push_cast; linarith, by push_cast; linarith,
      fun _ => ⟨by push_cast; linarith, by push_cast; linarith⟩⟩

/-! ### What a number is rounded to -/

/-- The number `v` is rounded to `x`: to zero if it is at most half of the least number, and
else to the one whose interval has it. -/
inductive RoundsTo (v : ℚ) : ℚ → Prop
  | zero (tiny : v ≤ 2 ^ (-1075 : Int)) : RoundsTo v 0
  | binary {b : Binary} (regular : b.Regular) (contains : b.Contains v) :
      RoundsTo v (dyadic b.significand b.exponent)

variable {v x y : ℚ} {b : Binary}

theorem two_zpow_succ (e : Int) : (2 : ℚ) ^ (e + 1) = 2 * 2 ^ e := by
  rw [zpow_add_one₀ (by norm_num), mul_comm]

namespace Binary

/-- A number in units of the last place is rounded to the nearest whole number of them. -/
theorem contains_of_nearest {r : Nat} {e : Int} (near : NearestTo r (v / 2 ^ e)) (pos : 0 < r)
    (short : r < 2 ^ 53) (low : -1074 ≤ e) (full : 2 ^ 52 ≤ v / 2 ^ e ∨ e = -1074) :
    (Binary.mk r e (r = 2 ^ 52 ∧ -1074 < e)).Regular ∧
      (Binary.mk r e (r = 2 ^ 52 ∧ -1074 < e)).Contains v := by
  have unit : (0 : ℚ) < 2 ^ e := by positivity
  constructor
  · refine ⟨pos, short, low, full.imp_left fun filled => ?_, by simp⟩
    have reached : ((2 ^ 52 : Nat) : ℚ) < (r + 1 : Nat) := by
      push_cast
      linarith [near.le]
    exact Nat.le_of_lt_succ (by exact_mod_cast reached)
  · have lower := lower_eq (x := ⟨r, e, r = 2 ^ 52 ∧ -1074 < e⟩) pos
    have upper := upper_eq ⟨r, e, r = 2 ^ 52 ∧ -1074 < e⟩
    dsimp only at lower upper
    refine ⟨?_, ?_, fun odd => ?_⟩
    · rw [lower, ← le_div_iff₀ unit]
      split
      · rename_i narrow
        obtain ⟨first, normal⟩ := of_decide_eq_true narrow
        rw [first]
        push_cast
        linarith [full.resolve_right (by omega)]
      · exact near.ge
    · rw [upper, ← div_le_iff₀ unit]
      exact near.le
    · have wide : ¬ (r = 2 ^ 52 ∧ -1074 < e) := by
        dsimp only at odd
        omega
      rw [lower, upper, decide_eq_false wide, ← lt_div_iff₀ unit, ← div_lt_iff₀ unit]
      exact near.tie odd

/-- Rounded up to the next binade, a number lies just below its first float. -/
theorem contains_of_carry {e : Int} (near : NearestTo (2 ^ 53) (v / 2 ^ e)) (low : -1074 ≤ e) :
    (Binary.mk (2 ^ 52) (e + 1) true).Regular ∧ (Binary.mk (2 ^ 52) (e + 1) true).Contains v := by
  have unit : (0 : ℚ) < 2 ^ e := by positivity
  obtain ⟨ge, le, -⟩ := near
  rw [le_div_iff₀ unit] at ge
  rw [div_le_iff₀ unit] at le
  push_cast at ge le
  have pos : 0 < 2 ^ 52 := by decide
  have short : 2 ^ 52 < 2 ^ 53 := by decide
  have even : ¬ 2 ^ 52 % 2 = 1 := by decide
  refine ⟨⟨pos, short, by dsimp only; omega, .inl (Nat.le_refl _), ?_⟩,
    ⟨?_, ?_, fun odd => absurd odd even⟩⟩
  · simp only [true_iff, true_and]
    omega
  · rw [lower_eq pos, if_pos rfl, two_zpow_succ]
    push_cast
    linarith
  · rw [upper_eq, two_zpow_succ]
    push_cast
    linarith

/-- Above half of the least one, every number lies in the interval of some float. -/
theorem exists_contains (large : 2 ^ (-1075 : Int) < v) : ∃ b : Binary, b.Regular ∧ b.Contains v := by
  have pos : 0 < v := lt_trans (by positivity) large
  obtain ⟨k, ge, lt⟩ := exists_mem_Ico_zpow pos (by norm_num : (1 : ℚ) < 2)
  -- The last place is 52 bits below the first one, unless that is too low.
  obtain ⟨e, place⟩ : ∃ e, e = max (k - 52) (-1074) := ⟨_, rfl⟩
  have unit : (0 : ℚ) < 2 ^ e := by positivity
  have short : v / 2 ^ e < 2 ^ 53 := by
    rw [div_lt_iff₀ unit, ← two_zpow_add]
    exact lt.trans_le (zpow_le_zpow_right₀ (by norm_num) (by omega))
  have full : 2 ^ 52 ≤ v / 2 ^ e ∨ e = -1074 := by
    rcases Int.lt_or_eq_of_le (show -1074 ≤ e by omega) with normal | least
    · left
      rw [le_div_iff₀ unit, ← two_zpow_add]
      exact le_trans (zpow_le_zpow_right₀ (by norm_num) (by omega)) ge
    · exact .inr least.symm
  have half : 1 / 2 < v / 2 ^ e := by
    rcases full with filled | least
    · linarith
    · have twice := two_zpow_succ (-1075)
      norm_num only at twice
      rw [lt_div_iff₀ unit, least, twice]
      linarith
  obtain ⟨r, near⟩ := exists_nearestTo (div_pos pos unit).le
  have filled : 0 < r := by
    have above : (0 : ℚ) < r := by linarith [near.le]
    exact_mod_cast above
  have top : r ≤ 2 ^ 53 := by
    have below : (r : ℚ) < (2 ^ 53 + 1 : Nat) := by
      push_cast
      linarith [near.ge]
    exact Nat.le_of_lt_succ (by exact_mod_cast below)
  rcases Nat.lt_or_eq_of_le top with fits | carry
  · exact ⟨_, contains_of_nearest near filled fits (by omega) full⟩
  · subst carry
    exact ⟨_, contains_of_carry near (by omega)⟩

end Binary

theorem exists_roundsTo (v : ℚ) : ∃ x, RoundsTo v x := by
  rcases le_or_gt v (2 ^ (-1075 : Int)) with tiny | large
  · exact ⟨0, .zero tiny⟩
  · obtain ⟨b, regular, contains⟩ := Binary.exists_contains large
    exact ⟨_, .binary regular contains⟩

/-! ### Nearness -/

/-- The number has at most 53 bits, of which the last is not below the least place. -/
def IsDouble (x : ℚ) : Prop :=
  ∃ (m : Nat) (e : Int), m < 2 ^ 53 ∧ -1074 ≤ e ∧ x = dyadic m e

theorem RoundsTo.isDouble (h : RoundsTo v x) : IsDouble x := by
  cases h with
  | zero => exact ⟨0, 0, by decide, by decide, by simp [dyadic]⟩
  | binary regular contains => exact ⟨_, _, regular.short, regular.low, rfl⟩

theorem isDouble_natCast {n : Nat} (h : n ≤ 2 ^ 53) : IsDouble n := by
  rcases Nat.lt_or_eq_of_le h with short | edge
  · exact ⟨n, 0, short, by decide, by simp [dyadic]⟩
  · refine ⟨1, 53, by decide, by decide, ?_⟩
    rw [edge, dyadic]
    norm_num

theorem isDouble_two_pow (k : Nat) : IsDouble (2 ^ k) := by
  refine ⟨1, k, by decide, by omega, ?_⟩
  rw [dyadic, zpow_natCast, Nat.cast_one, one_mul]

/-- A number of double precision is a whole number of units of a place, or has its first bit
below the 53rd bit from there. -/
theorem IsDouble.cases_place (h : IsDouble x) (e : Int) :
    (∃ n : Nat, x = dyadic n e) ∨ -1074 < e ∧ x ≤ (2 ^ 52 - 1 / 2) * 2 ^ e := by
  obtain ⟨m, d, short, low, rfl⟩ := h
  rcases Int.lt_or_le d e with fine | coarse
  · right
    refine ⟨by omega, ?_⟩
    have few : (m : ℚ) ≤ 2 ^ 53 - 1 := by
      have cast : (m : ℚ) + 1 ≤ 2 ^ 53 := by exact_mod_cast short
      linarith
    have place : (2 : ℚ) ^ d ≤ 2 ^ (e - 1) := zpow_le_zpow_right₀ (by norm_num) (by omega)
    have unit := two_zpow_succ (e - 1)
    rw [Int.sub_add_cancel] at unit
    calc dyadic m d ≤ (2 ^ 53 - 1) * 2 ^ (e - 1) :=
          mul_le_mul few place (by positivity) (by norm_num)
      _ = (2 ^ 52 - 1 / 2) * 2 ^ e := by rw [unit]; ring
  · left
    obtain ⟨k, rfl⟩ := Int.le.dest coarse
    exact ⟨m * 2 ^ k, dyadic_shift m k e⟩

namespace Binary

theorem Regular.le_significand (regular : b.Regular) (normal : -1074 < b.exponent) :
    2 ^ 52 ≤ b.significand :=
  regular.full.resolve_right (by omega)

/-- A number of double precision above a float is at least one unit of its last place away. -/
theorem Regular.le_of_gt (regular : b.Regular) (double : IsDouble y)
    (above : dyadic b.significand b.exponent < y) :
    2 * b.upper ≤ dyadic b.significand b.exponent + y := by
  have unit : (0 : ℚ) < 2 ^ b.exponent := by positivity
  rw [upper_eq]
  rw [dyadic] at above ⊢
  rcases double.cases_place b.exponent with ⟨n, rfl⟩ | ⟨normal, small⟩
  · rw [dyadic, mul_lt_mul_iff_left₀ unit] at above
    have next : (b.significand : ℚ) + 1 ≤ n := by exact_mod_cast above
    have scaled := mul_le_mul_of_nonneg_right next unit.le
    rw [dyadic]
    linarith
  · have long : (2 : ℚ) ^ 52 ≤ b.significand := by exact_mod_cast regular.le_significand normal
    have scaled := mul_le_mul_of_nonneg_right long unit.le
    linarith

/-- A number of double precision below a float is at least one unit of its last place away, or half
of that where a binade starts. -/
theorem Regular.le_of_lt (regular : b.Regular) (double : IsDouble y)
    (below : y < dyadic b.significand b.exponent) :
    dyadic b.significand b.exponent + y ≤ 2 * b.lower := by
  have unit : (0 : ℚ) < 2 ^ b.exponent := by positivity
  rw [lower_eq regular.pos]
  rw [dyadic] at below ⊢
  rcases double.cases_place b.exponent with ⟨n, rfl⟩ | ⟨normal, small⟩
  · rw [dyadic, mul_lt_mul_iff_left₀ unit] at below
    have next : (n : ℚ) + 1 ≤ b.significand := by exact_mod_cast below
    have scaled := mul_le_mul_of_nonneg_right next unit.le
    rw [dyadic]
    split <;> linarith
  · rcases Nat.eq_or_lt_of_le (regular.le_significand normal) with first | later
    · have narrow : b.narrowBelow = true := regular.narrow.mpr ⟨first.symm, normal⟩
      rw [if_pos narrow, ← first]
      push_cast
      linarith
    · have more : (2 : ℚ) ^ 52 + 1 ≤ b.significand := by exact_mod_cast later
      have scaled := mul_le_mul_of_nonneg_right more unit.le
      split <;> linarith

end Binary

theorem abs_sub_le_of_le_half (less : x < y) (near : 2 * v ≤ x + y) : |v - x| ≤ |v - y| := by
  have far := neg_abs_le (v - y)
  rw [abs_le]
  constructor <;> linarith

theorem abs_sub_le_of_half_le (less : y < x) (near : x + y ≤ 2 * v) : |v - x| ≤ |v - y| := by
  have far := le_abs_self (v - y)
  rw [abs_le]
  constructor <;> linarith

namespace RoundsTo

/-- **A number is rounded to a nearest one of double precision.** -/
theorem abs_sub_le (h : RoundsTo v x) (double : IsDouble y) : |v - x| ≤ |v - y| := by
  cases h with
  | zero tiny =>
      rcases double.cases_place (-1074) with ⟨n, rfl⟩ | ⟨normal, -⟩
      · rcases Nat.eq_zero_or_pos n with rfl | filled
        · rw [dyadic, Nat.cast_zero, zero_mul]
        · have least := dyadic_le_dyadic (Nat.succ_le_of_lt filled) (-1074)
          have unit : dyadic 1 (-1074) = 2 * 2 ^ (-1075 : Int) := by
            rw [dyadic, Nat.cast_one, one_mul, ← two_zpow_succ]
            norm_num only
          have half : (0 : ℚ) < 2 ^ (-1075 : Int) := by positivity
          rw [unit] at least
          exact abs_sub_le_of_le_half (by linarith) (by linarith)
      · exact absurd normal (by decide)
  | @binary b regular contains =>
      rcases lt_trichotomy (dyadic b.significand b.exponent) y with above | rfl | below
      · have next := regular.le_of_gt double above
        exact abs_sub_le_of_le_half above (by linarith [contains.le])
      · exact le_refl _
      · have next := regular.le_of_lt double below
        exact abs_sub_le_of_half_le below (by linarith [contains.ge])

/-- What lies above a number of double precision is not rounded to below it. -/
theorem le_of_le (h : RoundsTo v x) (double : IsDouble y) (le : y ≤ v) : y ≤ x := by
  by_contra less
  have near := h.abs_sub_le double
  rw [abs_of_nonneg (by linarith), abs_of_nonneg (by linarith)] at near
  linarith

/-- What lies below a number of double precision is not rounded to above it. -/
theorem ge_of_ge (h : RoundsTo v x) (double : IsDouble y) (ge : v ≤ y) : x ≤ y := by
  by_contra more
  have near := h.abs_sub_le double
  rw [abs_of_nonpos (by linarith), abs_of_nonpos (by linarith)] at near
  linarith

/-- A number of double precision stays as it is. -/
theorem eq_self (h : RoundsTo v x) (double : IsDouble v) : x = v :=
  le_antisymm (h.ge_of_ge double le_rfl) (h.le_of_le double le_rfl)

theorem nonneg (h : RoundsTo v x) : 0 ≤ x := by
  obtain ⟨m, e, -, -, rfl⟩ := h.isDouble
  exact dyadic_nonneg m e

/-! ### Whole parts -/

/-- **Below `2 ^ 53` rounding reaches at most the next whole number.** -/
theorem floor_eq_or (h : RoundsTo v x) (nonneg : 0 ≤ v) (small : v < 2 ^ 53) :
    ⌊x⌋₊ = ⌊v⌋₊ ∨ x = ⌊v⌋₊ + 1 := by
  have whole : ⌊v⌋₊ < 2 ^ 53 := (Nat.floor_lt nonneg).mpr (by exact_mod_cast small)
  have low := h.le_of_le (isDouble_natCast whole.le) (Nat.floor_le nonneg)
  have next : IsDouble (⌊v⌋₊ + 1) := by exact_mod_cast isDouble_natCast (Nat.succ_le_of_lt whole)
  rcases (h.ge_of_ge next (Nat.lt_floor_add_one v).le).lt_or_eq with less | eq
  · exact .inl ((Nat.floor_eq_iff h.nonneg).mpr ⟨low, less⟩)
  · exact .inr eq

/-- Close below a whole number there is one of double precision. -/
theorem exists_isDouble_below {n : Nat} (pos : 0 < n) (short : n ≤ 2 ^ 53) :
    ∃ y, IsDouble y ∧ y < n ∧ (n - y) * 2 ^ 53 < 2 * n := by
  -- One unit of the last place that `n` may have.
  obtain ⟨k, place⟩ : ∃ k, k = (2 ^ 53 / n).log2 := ⟨_, rfl⟩
  have fits : 2 ^ k ≤ 2 ^ 53 / n := place ▸ Nat.log2_self_le (Nat.div_pos short pos).ne'
  have last : 2 ^ 53 / n < 2 ^ (k + 1) := place ▸ Nat.lt_log2_self
  rw [Nat.le_div_iff_mul_le pos] at fits
  rw [Nat.div_lt_iff_lt_mul pos] at last
  have filled : 0 < 2 ^ k * n := Nat.mul_pos (Nat.two_pow_pos k) pos
  have low : k ≤ 53 := by
    have power : 2 ^ k ≤ 2 ^ 53 := Nat.le_trans (Nat.le_mul_of_pos_right _ pos) fits
    exact (Nat.pow_le_pow_iff_right (by decide)).mp power
  have unit : (0 : ℚ) < 2 ^ k := by positivity
  have value : dyadic (2 ^ k * n - 1) (-k) = n - 1 / 2 ^ k := by
    rw [dyadic, Nat.cast_sub filled, zpow_neg, zpow_natCast]
    push_cast
    field_simp
  refine ⟨_, ⟨2 ^ k * n - 1, -k, by omega, by omega, rfl⟩, ?_, ?_⟩
  · rw [value]
    linarith [one_div_pos.mpr unit]
  · have last : (2 : ℚ) ^ 53 < 2 ^ k * 2 * n := by exact_mod_cast (pow_succ 2 k) ▸ last
    rw [value, sub_sub_cancel, one_div_mul_eq_div, div_lt_iff₀ unit]
    linarith

/-- A number keeps its whole part unless it is within a part in `2 ^ 53` of the next whole one. -/
theorem floor_eq_of_gap (h : RoundsTo v x) (nonneg : 0 ≤ v) (small : v < 2 ^ 53)
    (gap : ⌊v⌋₊ + 1 ≤ (⌊v⌋₊ + 1 - v) * 2 ^ 53) : ⌊x⌋₊ = ⌊v⌋₊ := by
  refine (h.floor_eq_or nonneg small).resolve_right fun carried => ?_
  have whole : ⌊v⌋₊ + 1 ≤ 2 ^ 53 := (Nat.floor_lt nonneg).mpr (by exact_mod_cast small)
  have less := Nat.lt_floor_add_one v
  obtain ⟨y, double, below, close⟩ := exists_isDouble_below (Nat.succ_pos ⌊v⌋₊) whole
  have near := h.abs_sub_le double
  push_cast at below close
  rw [carried, abs_of_neg (by linarith)] at near
  rcases le_total v y with above | beyond
  · rw [abs_of_nonpos (by linarith)] at near
    linarith
  · rw [abs_of_nonneg (by linarith)] at near
    linarith

/-- A fraction of few digits keeps its whole part. -/
theorem floor_eq_of_fraction {c k : Nat} (h : RoundsTo (c / 10 ^ k) x) (few : c < 2 ^ 53)
    (small : (c / 10 ^ k : ℚ) < 2 ^ 53) : ⌊x⌋₊ = ⌊(c / 10 ^ k : ℚ)⌋₊ := by
  refine h.floor_eq_of_gap (by positivity) small ?_
  have scale : (0 : ℚ) < 10 ^ k := by positivity
  have less := Nat.lt_floor_add_one (c / 10 ^ k : ℚ)
  generalize ⌊(c / 10 ^ k : ℚ)⌋₊ = n at less ⊢
  rw [div_lt_iff₀ scale] at less
  -- In units of the last digit the next whole number is at least one away, so many are not there.
  have next : (c : ℚ) + 1 ≤ (n + 1) * 10 ^ k := by exact_mod_cast less
  have units : (c : ℚ) + 1 ≤ 2 ^ 53 := by exact_mod_cast few
  have value : (n + 1 - c / 10 ^ k : ℚ) * 10 ^ k = (n + 1) * 10 ^ k - c := by
    rw [sub_mul, div_mul_cancel₀ _ scale.ne']
  rw [← mul_le_mul_iff_left₀ scale, mul_right_comm, value]
  linarith

/-- **A decimal of few digits keeps its whole part.** -/
theorem floor_eq_of_digits {c : Nat} {p : Int} (h : RoundsTo (c * 10 ^ p) x) (few : c < 2 ^ 53)
    (small : (c * 10 ^ p : ℚ) < 2 ^ 53) : ⌊x⌋₊ = ⌊(c * 10 ^ p : ℚ)⌋₊ := by
  rcases le_or_gt 0 p with up | down
  · have whole : (c * 10 ^ p : ℚ) = (c * 10 ^ p.toNat : Nat) / 10 ^ 0 := by
      rw [pow_zero, div_one, Nat.cast_mul, Nat.cast_pow, Nat.cast_ofNat, ← zpow_natCast,
        Int.toNat_of_nonneg up]
    rw [whole] at h small ⊢
    refine floor_eq_of_fraction h ?_ small
    rw [pow_zero, div_one] at small
    exact_mod_cast small
  · have part : (c * 10 ^ p : ℚ) = c / 10 ^ p.natAbs := by
      rw [div_eq_mul_inv, ← zpow_natCast, ← zpow_neg]
      congr 2
      omega
    rw [part] at h small ⊢
    exact floor_eq_of_fraction h few small

end RoundsTo

end MinerWatch.Decimal
