import MinerWatch.Proofs.Decimal.Truncation
/-!
Products and quotients of floats, and how far off they are.

A product or quotient is what the exact one is rounded to (`denotes_mul`, `denotes_div`), as long
as that is neither too small nor too large for a float in normal form. Rounding is off by at most one
part in `2 ^ 53` (`RoundsTo.abs_sub_mul_le`), and it does not reach a whole number from more than half
a unit of the last place below (`RoundsTo.lt_of_gap`).
-/

namespace MinerWatch.Decimal

open Float.Model Float.Model.UnpackedFloat

/-- The number that a finite float is. -/
def number (x : Float) : ℚ :=
  let size := dyadic (Binary.ofBits x.toBits).significand (Binary.ofBits x.toBits).exponent
  if isNegative x then -size else size

variable {x y : Float} {a b v r : ℚ} {z : Binary}

/-! ### How far rounding goes -/

theorem least_normal : (2 : ℚ) ^ (-1022 : Int) = 2 ^ 52 * 2 ^ (-1074 : Int) := by
  rw [← Binary.two_zpow_add]
  norm_num only

theorem isDouble_least_normal : IsDouble (2 ^ (-1022 : Int)) :=
  ⟨1, -1022, by decide, by decide, by rw [dyadic, Nat.cast_one, one_mul]⟩

/-- Numbers from one on are large enough for a float in normal form. -/
theorem least_normal_le (one : 1 ≤ a) : (2 : ℚ) ^ (-1022 : Int) ≤ a :=
  le_trans (zpow_le_one_of_nonpos₀ (by norm_num) (by norm_num)) one

theorem Binary.Regular.normal (regular : z.Regular)
    (large : 2 ^ (-1022 : Int) ≤ dyadic z.significand z.exponent) : Normal z.significand := by
  refine ⟨?_, regular.short⟩
  rcases regular.full with long | least
  · exact long
  · have unit : (0 : ℚ) < 2 ^ (-1074 : Int) := by positivity
    rw [dyadic, least, least_normal, mul_le_mul_iff_left₀ unit] at large
    exact_mod_cast large

/-- A number that is not too small is rounded to one in normal form. -/
theorem Binary.Contains.normal (contains : z.Contains v) (regular : z.Regular)
    (low : 2 ^ (-1022 : Int) ≤ v) : Normal z.significand :=
  regular.normal ((RoundsTo.binary regular contains).le_of_le isDouble_least_normal low)

/-- **Rounding is off by at most one part in `2 ^ 53`.** -/
theorem RoundsTo.abs_sub_mul_le (h : RoundsTo v r) (low : 2 ^ (-1022 : Int) ≤ v) :
    |v - r| * 2 ^ 53 ≤ v := by
  cases h with
  | zero tiny =>
      have half : (2 : ℚ) ^ (-1075 : Int) < 2 ^ (-1022 : Int) :=
        zpow_lt_zpow_right₀ (by norm_num) (by norm_num)
      linarith
  | @binary z regular contains =>
      have unit : (0 : ℚ) < 2 ^ z.exponent := by positivity
      have normal := contains.normal regular low
      have long : (2 : ℚ) ^ 52 ≤ z.significand := by exact_mod_cast normal.1
      have filled := mul_le_mul_of_nonneg_right long unit.le
      have ge := contains.ge
      have le := contains.le
      rw [Binary.lower_eq regular.pos] at ge
      rw [Binary.upper_eq] at le
      rw [dyadic]
      rcases le_or_gt ((z.significand : ℚ) * 2 ^ z.exponent) v with above | below
      · rw [abs_of_nonneg (by linarith)]
        linarith
      · rw [abs_of_neg (by linarith)]
        split at ge
        · linarith
        · -- No number of this size lies below the first float of the least binade.
          rename_i wide
          have later : (2 : ℚ) ^ 52 + 1 ≤ z.significand := by
            rcases Nat.eq_or_lt_of_le normal.1 with first | later
            · have least : z.exponent = -1074 := by
                by_contra more
                exact wide (regular.narrow.mpr
                  ⟨first.symm, lt_of_le_of_ne regular.low (Ne.symm more)⟩)
              rw [← first, least, Nat.cast_pow, Nat.cast_ofNat, ← least_normal] at below
              linarith
            · exact_mod_cast later
          have scaled := mul_le_mul_of_nonneg_right later unit.le
          linarith

/-- A number stays below a whole one that is more than half a unit of the last place away. -/
theorem RoundsTo.lt_of_gap {n k : Nat} (h : RoundsTo v r) (nonneg : 0 ≤ v)
    (short : n * 2 ^ k ≤ 2 ^ 53) (low : k ≤ 1074) (gap : v + 1 / 2 ^ (k + 1) < n) : r < n := by
  by_contra reached
  have unit : (0 : ℚ) < 1 / 2 ^ k := by positivity
  have half : (1 : ℚ) / 2 ^ (k + 1) = 1 / 2 ^ k / 2 := by rw [pow_succ, div_div]
  rw [half] at gap
  -- The number one unit of the last place below is nearer.
  have below : IsDouble (n - 1 / 2 ^ k) := by
    have pos : 0 < n := by
      have filled : (0 : ℚ) < n := by linarith
      exact_mod_cast filled
    have filled : 1 ≤ n * 2 ^ k := Nat.mul_pos pos (Nat.two_pow_pos k)
    refine ⟨n * 2 ^ k - 1, -k, by omega, by omega, ?_⟩
    rw [dyadic, Nat.cast_sub filled, zpow_neg, zpow_natCast]
    push_cast
    field_simp
  have near := h.abs_sub_le below
  rw [abs_of_neg (by linarith)] at near
  rcases le_total v (n - 1 / 2 ^ k) with outside | between
  · rw [abs_of_nonpos (by linarith)] at near
    linarith
  · rw [abs_of_nonneg (by linarith)] at near
    linarith

/-! ### Operations -/

/-- A float that was rounded is a number in normal form, if it is neither too small nor too large. -/
theorem RoundsTo.denotes (h : RoundsTo v r) (low : 2 ^ (-1022 : Int) ≤ v) (high : v ≤ 2 ^ 1023)
    (rounded : ∀ (z : Binary) (regular : z.Regular), z.Contains v →
      x.toModel = .pack (.finite .positive z.significand z.exponent regular.pos)) : Denotes x r := by
  have top := h.ge_of_ge (isDouble_two_pow 1023) high
  cases h with
  | zero tiny =>
      have half : (2 : ℚ) ^ (-1075 : Int) < 2 ^ (-1022 : Int) :=
        zpow_lt_zpow_right₀ (by norm_num) (by norm_num)
      linarith
  | @binary z regular contains =>
      have normal := contains.normal regular low
      have less : dyadic z.significand z.exponent < 2 ^ 1024 :=
        top.trans_lt (pow_lt_pow_right₀ (by norm_num) (by norm_num))
      have canonical := regular.canonical ((dyadic_lt_limit_iff regular).mp less)
      refine ⟨z.significand, z.exponent, regular.pos, ?_, normal, rfl⟩
      rw [rounded z regular contains]
      exact canonical.unpack_pack .positive

/-- **A product is the exact one, rounded.** -/
theorem denotes_mul (hx : Denotes x a) (hy : Denotes y b) (rounds : RoundsTo (a * b) r)
    (low : 2 ^ (-1022 : Int) ≤ a * b) (high : a * b ≤ 2 ^ 1023) : Denotes (x * y) r :=
  rounds.denotes low high fun _ regular contains => mul_of_contains hx hy regular contains

/-- **A quotient is the exact one, rounded.** -/
theorem denotes_div (hx : Denotes x a) (hy : Denotes y b) (rounds : RoundsTo (a / b) r)
    (one : 1 ≤ a) (table : b ≤ 10 ^ 22) (low : 2 ^ (-1022 : Int) ≤ a / b) (high : a / b ≤ 2 ^ 1023) :
    Denotes (x / y) r :=
  rounds.denotes low high fun _ regular contains =>
    div_of_contains hx hy one table regular contains

/-! ### Zero included -/

/-- The float is this number: zero, or one in normal form. -/
inductive Amount (x : Float) : ℚ → Prop
  | zero {s : Sign} (unpack : x.toModel.unpack = .zero s) : Amount x 0
  | denotes {a : ℚ} (h : Denotes x a) : Amount x a

theorem Denotes.pos (h : Denotes x a) : 0 < a := by
  obtain ⟨m, e, pos, -, -, rfl⟩ := h
  have filled : (0 : ℚ) < m := by exact_mod_cast pos
  exact mul_pos filled (by positivity)

/-- A float that is packed as zero is zero. -/
theorem amount_of_pack_zero {s : Sign} (packed : x.toModel = .pack (.zero s)) : Amount x 0 :=
  .zero (packed ▸ unpack_pack_zero s)

theorem roundsTo_zero (h : RoundsTo 0 r) : r = 0 :=
  h.eq_self (by exact_mod_cast isDouble_natCast (Nat.zero_le (2 ^ 53)))

/-- A product is the exact one, rounded, also if it is zero. -/
theorem amount_mul (hx : Amount x a) (hy : Amount y b) (rounds : RoundsTo (a * b) r)
    (low : 0 < a * b → 2 ^ (-1022 : Int) ≤ a * b) (high : a * b ≤ 2 ^ 1023) : Amount (x * y) r := by
  have model : (x * y).toModel = .pack (.mul .binary64 x.toModel.unpack y.toModel.unpack) := rfl
  cases hx with
  | zero left =>
      rw [zero_mul] at rounds
      rw [roundsTo_zero rounds]
      rw [left] at model
      cases hy with
      | zero right =>
          rw [right] at model
          exact amount_of_pack_zero model
      | denotes hy =>
          obtain ⟨m, e, pos, right, -, -⟩ := hy
          rw [right] at model
          exact amount_of_pack_zero model
  | denotes hx =>
      cases hy with
      | zero right =>
          obtain ⟨m, e, pos, left, -, -⟩ := hx
          rw [mul_zero] at rounds
          rw [roundsTo_zero rounds]
          rw [left, right] at model
          exact amount_of_pack_zero model
      | denotes hy =>
          exact .denotes (denotes_mul hx hy rounds (low (mul_pos hx.pos hy.pos)) high)

/-- The quotient of a number that is zero or at least one is the exact one, rounded. -/
theorem amount_div (hx : Amount x a) (hy : Denotes y b) (rounds : RoundsTo (a / b) r)
    (one : 0 < a → 1 ≤ a) (table : b ≤ 10 ^ 22) (low : 0 < a → 2 ^ (-1022 : Int) ≤ a / b)
    (high : a / b ≤ 2 ^ 1023) : Amount (x / y) r := by
  cases hx with
  | zero left =>
      have model : (x / y).toModel = .pack (.div .binary64 x.toModel.unpack y.toModel.unpack) := rfl
      obtain ⟨m, e, pos, right, -, -⟩ := hy
      rw [zero_div] at rounds
      rw [roundsTo_zero rounds]
      rw [left, right] at model
      exact amount_of_pack_zero model
  | denotes hx =>
      exact .denotes (denotes_div hx hy rounds (one hx.pos) table (low hx.pos) high)

/-- A float is cut to the whole part of its number, or to the largest word. -/
theorem Amount.toNat_toUInt64 (h : Amount x a) : x.toUInt64.toNat = min ⌊a⌋₊ (2 ^ 64 - 1) := by
  have model : x.toUInt64 = x.toModel.unpack.toUInt64 := rfl
  rw [model]
  cases h with
  | zero eq =>
      rw [eq, Nat.floor_zero]
      rfl
  | denotes h =>
      obtain ⟨m, e, pos, eq, -, rfl⟩ := h
      rw [eq]
      show (UInt64.ofNatClamp (roundToInt .positive m e).toNat).toNat = _
      rw [roundToInt_eq, Int.toNat_natCast, toNat_ofNatClamp]

/-! ### Whole numbers -/

/-- A word of at most 53 bits is itself as a float. -/
theorem amount_toFloat {n : Nat} (short : n < 2 ^ 53) : Amount n.toUInt64.toFloat n := by
  rcases Nat.eq_zero_or_pos n with rfl | pos
  · rw [Nat.cast_zero]
    exact amount_of_pack_zero (s := .positive) rfl
  · exact .denotes (denotes_toFloat pos short)

/-- A finite float that is a whole number is in normal form, or zero. -/
theorem amount_of_number {n : Nat} (finite : x.isFinite = true) (whole : number x = n) :
    Amount x n := by
  by_cases zero : (Binary.ofBits x.toBits).significand = 0
  · rw [number, zero, dyadic, Nat.cast_zero, zero_mul, neg_zero, ite_self] at whole
    rw [← whole]
    exact .zero (unpack_of_zero zero)
  · have regular := (Binary.canonical_ofBits finite zero).regular
    have filled := dyadic_pos regular
    have nonneg : (0 : ℚ) ≤ n := Nat.cast_nonneg n
    have positive : ¬ isNegative x = true := by
      intro negative
      rw [number, if_pos negative] at whole
      linarith
    rw [number, if_neg positive] at whole
    have one : (1 : ℚ) ≤ n := by
      have pos : 0 < n := by exact_mod_cast whole ▸ filled
      exact_mod_cast pos
    refine .denotes ⟨_, _, regular.pos, ?_, regular.normal ?_, whole⟩
    · rw [unpack_of_significand finite zero, signOf, if_neg positive]
    · rw [whole]
      exact least_normal_le one

end MinerWatch.Decimal
