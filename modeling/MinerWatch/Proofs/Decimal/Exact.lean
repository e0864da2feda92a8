import MinerWatch.Proofs.Decimal.ReadBack
/-!
When a float that was written is read back exactly.

Reading makes a word of the digits of a numeral and scales it by a power of ten. A word of at most
53 bits is a float, and so are the powers of ten up to `10 ^ 22`; then the only rounding is that of
the product or quotient, and it gives the float that was written (`scaled_numeral`).
-/

namespace MinerWatch.Decimal

open Float.Model Float.Model.UnpackedFloat

/-! ### Operations that round once -/

theorem normal_filled {n : Nat} (pos : 0 < n) (short : n < 2 ^ 53) :
    Normal (n <<< (52 - n.log2)) := by
  have log : n.log2 < 53 := (Nat.log2_lt pos.ne').mpr short
  refine ⟨le_filled pos, ?_⟩
  calc n <<< (52 - n.log2) = n * 2 ^ (52 - n.log2) := Nat.shiftLeft_eq ..
    _ < 2 ^ (n.log2 + 1) * 2 ^ (52 - n.log2) :=
      Nat.mul_lt_mul_of_pos_right Nat.lt_log2_self (Nat.two_pow_pos _)
    _ = 2 ^ 53 := by
      rw [← Nat.pow_add]
      congr 1
      omega

/-- A word of at most 53 bits is a float. -/
theorem denotes_toFloat {n : Nat} (pos : 0 < n) (short : n < 2 ^ 53) :
    Denotes n.toUInt64.toFloat n := by
  have size := dyadic_filled n
  have normal := normal_filled pos short
  have filled := toFloat_eq pos (Nat.lt_trans short (by decide))
  have low : -52 ≤ (0 - (52 - n.log2 : Nat) : Int) := by omega
  have high : (0 - (52 - n.log2 : Nat) : Int) ≤ 0 := by omega
  generalize n <<< (52 - n.log2) = m at size normal filled
  generalize (0 - (52 - n.log2 : Nat) : Int) = e at size filled low high
  have canonical : Binary.Canonical ⟨m, e, decide (m = 2 ^ 52)⟩ := by
    refine ⟨Nat.lt_of_lt_of_le (by decide) normal.1, normal.2, ?_, ?_, .inl normal.1, ?_⟩
    · exact Int.le_trans (by decide) low
    · exact Int.le_trans high (by decide)
    · rw [decide_eq_true_eq]
      exact ⟨fun edge => ⟨edge, Int.lt_of_lt_of_le (by decide) low⟩, And.left⟩
  have rounded := roundWithAccuracy_of_contains .positive normal.1 (represents_exact m)
    canonical.regular (Binary.contains_self canonical.pos)
  refine ⟨m, e, canonical.pos, ?_, normal, size⟩
  rw [filled, rounded]
  exact canonical.unpack_pack .positive

variable {x y : Float} {a b : ℚ} {z : Binary}

/-- A product is the float whose interval has it. -/
theorem mul_of_contains (hx : Denotes x a) (hy : Denotes y b) (regular : z.Regular)
    (contains : z.Contains (a * b)) :
    (x * y).toModel = .pack (.finite .positive z.significand z.exponent regular.pos) := by
  obtain ⟨m, d, posx, eqx, normalx, rfl⟩ := hx
  obtain ⟨n, e, posy, eqy, -, rfl⟩ := hy
  show Float.Model.pack (UnpackedFloat.mul .binary64 x.toModel.unpack y.toModel.unpack) = _
  rw [eqx, eqy]
  congr 1
  rw [← dyadic_mul] at contains
  exact roundWithAccuracy_of_contains _ (Nat.le_trans normalx.1 (Nat.le_mul_of_pos_right m posy))
    (represents_exact (m * n)) regular contains

/-- The division of significands in normal form starts 53 bits below the quotient of their powers. -/
theorem divCore_of_normal {m n : Nat} {d e : Int} (hm : Normal m) (hn : Normal n)
    (range : -1021 ≤ d - e) :
    divCore .binary64 m d n e =
      (m * 2 ^ 53 / n, d - e - 53, accuracyOfFraction (m * 2 ^ 53 % n) n) := by
  have start : min (d - e) (Format.binary64.targetExponent (totalExponent m d - totalExponent n e)) =
      d - e - 53 := by
    have precision : (Format.binary64.mantissaBits : Int) = 53 := rfl
    have least : Format.binary64.minExponent = -1074 := rfl
    simp only [Format.targetExponent, totalExponent, precision, least, log2_of_normal hm,
      log2_of_normal hn]
    omega
  have shift : (d - e - (d - e - 53)).toNat = 53 := by omega
  simp only [divCore, start, shift, Nat.shiftLeft_eq]

/-- A quotient is the float whose interval has it. -/
theorem div_of_contains (hx : Denotes x a) (hy : Denotes y b) (low : 1 ≤ a) (high : b ≤ 10 ^ 22)
    (regular : z.Regular) (contains : z.Contains (a / b)) :
    (x / y).toModel = .pack (.finite .positive z.significand z.exponent regular.pos) := by
  obtain ⟨m, d, posx, eqx, normalx, rfl⟩ := hx
  obtain ⟨n, e, posy, eqy, normaly, rfl⟩ := hy
  have above : -53 < d := by
    have power := low.trans_lt (normalx.binade d).2
    rw [← zpow_zero (2 : ℚ), zpow_lt_zpow_iff_right₀ (by norm_num)] at power
    omega
  have below : e < 22 := by
    have table : (10 : ℚ) ^ 22 < 2 ^ (74 : Int) := by norm_num
    have power := ((normaly.binade e).1.trans high).trans_lt table
    rw [zpow_lt_zpow_iff_right₀ (by norm_num)] at power
    omega
  have long : 2 ^ 52 ≤ m * 2 ^ 53 / n := by
    rw [Nat.le_div_iff_mul_le posy]
    exact Nat.mul_le_mul normalx.1 normaly.2.le
  have exact_ : ((m * 2 ^ 53 : Nat) : ℚ) / n * 2 ^ (d - e - 53) = dyadic m d / dyadic n e := by
    have scale : (2 : ℚ) ^ (53 : Nat) * 2 ^ (d - e - 53) = 2 ^ d / 2 ^ e := by
      rw [← zpow_natCast, ← zpow_add₀ (by norm_num), ← zpow_sub₀ (by norm_num)]
      congr 1
      push_cast
      ring
    rw [dyadic, dyadic, mul_div_mul_comm, ← scale]
    push_cast
    ring
  show Float.Model.pack (UnpackedFloat.div .binary64 x.toModel.unpack y.toModel.unpack) = _
  rw [eqx, eqy, UnpackedFloat.div, divCore_of_normal normalx normaly (by omega)]
  rw [← exact_] at contains
  exact congrArg _
    (roundWithAccuracy_of_contains _ long (represents_div (m * 2 ^ 53) posy) regular contains)

/-- Zero lies in the interval of no float. -/
theorem Binary.Contains.coefficient_pos {n : Nat} {p : Int} (contains : z.Contains (n * 10 ^ p))
    (pos : 0 < z.significand) : 0 < n := by
  have above := (Binary.lower_pos pos).trans_le contains.ge
  apply Nat.pos_of_ne_zero
  intro zero
  rw [zero, Nat.cast_zero, zero_mul] at above
  exact lt_irrefl _ above

/-- A word that is scaled by a power of the table is rounded once. -/
theorem scaleBy_of_contains {n : Nat} {p : Int} (pos : 0 < n) (short : n < 2 ^ 53)
    (table : p.natAbs ≤ 22) (canonical : z.Canonical) (contains : z.Contains (n * 10 ^ p)) :
    (scaleBy n.toUInt64.toFloat p).toModel =
      .pack (.finite .positive z.significand z.exponent canonical.pos) := by
  have word := denotes_toFloat pos short
  have near : p.natAbs ≤ 308 := by omega
  rw [scaleBy, if_pos near]
  split
  · rename_i up
    apply mul_of_contains word (denotes_tenTo (by omega)) canonical.regular
    rwa [← zpow_natCast, Int.toNat_of_nonneg up]
  · have one : (1 : ℚ) ≤ n := by exact_mod_cast pos
    apply div_of_contains word (denotes_tenTo table) one (pow_le_pow_right₀ (by norm_num) table)
      canonical.regular
    have power : (10 : ℚ) ^ p = (10 ^ p.natAbs)⁻¹ := by
      rw [← zpow_natCast, ← zpow_neg]
      congr 1
      omega
    rwa [div_eq_mul_inv, ← power]

/-! ### Short numerals -/

namespace Numeral

/-- The power of ten by which all digits of a numeral together are scaled. -/
def power (n : Numeral) : Int :=
  (n.exponent.map Exponent.toInt).getD 0 - n.fraction.length

/-- The number that a numeral denotes, its sign left out. -/
def rat (n : Numeral) : ℚ :=
  value (n.whole ++ n.fraction) * 10 ^ n.power

/-- The digits of the numeral make up a number of at most 53 bits, and the power of ten behind them
is one that is a float itself. -/
structure Short (n : Numeral) : Prop where
  digits : value (n.whole ++ n.fraction) < 2 ^ 53
  table : n.power.natAbs ≤ 22

instance decidableShort (n : Numeral) : Decidable n.Short :=
  decidable_of_iff (value (n.whole ++ n.fraction) < 2 ^ 53 ∧ n.power.natAbs ≤ 22)
    ⟨fun h => ⟨h.1, h.2⟩, fun h => ⟨h.digits, h.table⟩⟩

/-- All digits of a short numeral are gathered, and nothing is clamped. -/
theorem Short.scaledSize_eq {n : Numeral} (short : n.Short)
    (near : ∀ e ∈ n.exponent, value e.digits ≤ 2147483647) :
    n.scaledSize = scaleBy (value (n.whole ++ n.fraction)).toUInt64.toFloat n.power := by
  have all : valueFrom (value n.whole) n.fraction < UInt64.size := by
    rw [← value_append]
    exact Nat.lt_trans short.digits (by decide)
  have whole : value n.whole < UInt64.size := Nat.lt_of_le_of_lt (le_valueFrom_self _ _) all
  rw [scaledSize_of_gathered (gatherWhole_of_lt whole) (gatherFraction_of_lt all), value_append,
    scaledWord]
  have table := short.table
  unfold power at table ⊢
  cases exponent : n.exponent with
  | none => simp only [Option.map_none, Option.getD_none, Int.zero_sub]
  | some e =>
      simp only [exponent, Option.map_some, Option.getD_some] at table
      have word : clampWord (-n.fraction.length + e.toInt) = e.toInt - n.fraction.length := by
        unfold clampWord
        omega
      simp only [if_pos (near e exponent), word, Option.map_some, Option.getD_some]

end Numeral

/-! ### What is written -/

theorem valueFrom_append (n : Nat) (ds es : List Digit) :
    valueFrom n (ds ++ es) = valueFrom (valueFrom n ds) es :=
  List.foldl_append ..

theorem valueFrom_zeros (n k : Nat) : valueFrom n (List.replicate k .zero) = n * 10 ^ k := by
  induction k generalizing n with
  | zero => simp [valueFrom]
  | succ k ih =>
      rw [List.replicate_succ, Nat.pow_succ', ← Nat.mul_assoc, Nat.mul_comm n]
      exact ih (10 * n)

theorem value_zeros_append (k : Nat) (ds : List Digit) :
    value (.zero :: (List.replicate k .zero ++ ds)) = value ds := by
  have zeros : valueFrom 0 (List.replicate k .zero) = 0 := by rw [valueFrom_zeros, Nat.zero_mul]
  show valueFrom 0 (List.replicate k .zero ++ ds) = _
  rw [valueFrom_append, zeros]
  rfl

theorem value_append_zeros (ds : List Digit) (k : Nat) :
    value (ds ++ List.replicate k .zero) = value ds * 10 ^ k := by
  rw [value_append, valueFrom_zeros]

/-- A positional numeral denotes its digits, with the leading one at the given power of ten. -/
theorem rat_plainNumeral (s : Style) (negative : Bool) (ds : List Digit) (lead : Int) :
    (s.plainNumeral negative ds lead).rat = value ds * 10 ^ (lead + 1 - ds.length) := by
  unfold Style.plainNumeral
  split
  · -- All digits stand behind the point and some zeros.
    simp only [Numeral.rat, Numeral.power, List.singleton_append, value_zeros_append,
      Option.map_none, Option.getD_none, List.length_append, List.length_replicate]
    congr 2
    omega
  · generalize width : lead.toNat + 1 = n
    rcases Nat.lt_or_ge n ds.length with long | short
    · -- The point stands between two digits.
      have rest : (ds.drop n).isEmpty = false := by simpa using long
      have none : n - ds.length = 0 := by omega
      simp only [Numeral.rat, Numeral.power, rest, none, List.replicate_zero, List.append_nil,
        Bool.false_and, Bool.false_eq_true, if_false, List.take_append_drop, Option.map_none,
        Option.getD_none, List.length_drop]
      congr 2
      omega
    · -- Zeros are added before the point, and one behind it if the style wants it.
      have rest : ds.drop n = [] := List.drop_eq_nil_of_le short
      have power : (10 : ℚ) ^ (n - ds.length) = 10 ^ (lead + 1 - ds.length) := by
        rw [← zpow_natCast]
        congr 1
        omega
      simp only [Numeral.rat, Numeral.power, rest, List.take_of_length_le short, List.isEmpty_nil,
        Bool.true_and, Option.map_none, Option.getD_none]
      split
      · have point := value_append_zeros (ds ++ List.replicate (n - ds.length) .zero) 1
        have tenth : (10 : ℚ) ^ (0 - (([.zero] : List Digit).length : Int)) = 10⁻¹ := by norm_num
        rw [List.replicate_one, value_append_zeros] at point
        rw [point, ← power, tenth]
        push_cast
        field_simp
      · rw [List.append_nil, value_append_zeros, ← power]
        push_cast
        norm_num

theorem toInt_exponent (lead : Int) : (Exponent.mk (lead < 0) (digits lead.natAbs)).toInt = lead := by
  simp only [Exponent.toInt, value_digits, decide_eq_true_eq]
  split <;> omega

theorem rat_scientificNumeral (negative : Bool) {ds : List Digit} (filled : ds ≠ []) (lead : Int) :
    (Style.scientificNumeral negative ds lead).rat = value ds * 10 ^ (lead + 1 - ds.length) := by
  have length := List.length_pos_of_ne_nil filled
  simp only [Style.scientificNumeral, Numeral.rat, Numeral.power, List.take_append_drop,
    Option.map_some, Option.getD_some, toInt_exponent, List.length_drop]
  congr 2
  omega

/-- The numeral that lays out a decimal denotes it. -/
theorem rat_layout (s : Style) (negative : Bool) (d : Scaled) : (s.layout negative d).rat = d.rat := by
  have place : d.exponent + (digits d.coefficient).length - 1 + 1 - (digits d.coefficient).length =
      d.exponent := by omega
  rw [Style.layout]
  split
  · rw [rat_plainNumeral, value_digits, place]
    rfl
  · rw [rat_scientificNumeral negative (digits_ne_nil _), value_digits, place]
    rfl

/-- A short numeral that lays out a decimal has a small exponent. -/
theorem exponent_layout_le {s : Style} {negative : Bool} {d : Scaled} (nonzero : d.coefficient ≠ 0)
    (short : (s.layout negative d).Short) :
    ∀ e ∈ (s.layout negative d).exponent, value e.digits ≤ 2147483647 := by
  obtain ⟨few, table⟩ := short
  rw [Style.layout] at few table ⊢
  split at few <;> rename_i plain
  · intro e written
    rw [if_pos plain] at written
    unfold Style.plainNumeral at written
    split at written <;> exact absurd written (by simp)
  · rw [if_neg plain] at table ⊢
    rintro e ⟨⟩
    generalize d.exponent + ((digits d.coefficient).length : Int) - 1 = lead at few table
    simp only [Style.scientificNumeral, Numeral.power, List.take_append_drop, value_digits,
      Option.map_some, Option.getD_some, toInt_exponent, List.length_drop] at few table
    have length : (digits d.coefficient).length - 1 < 16 := by
      have power := Nat.lt_of_le_of_lt (pow_length_digits_le nonzero) few
      exact (Nat.pow_lt_pow_iff_right (by decide : 1 < 10)).mp (Nat.lt_trans power (by decide))
    rw [value_digits]
    omega

theorem negative_plainNumeral (s : Style) (negative : Bool) (ds : List Digit) (lead : Int) :
    (s.plainNumeral negative ds lead).negative = negative := by
  unfold Style.plainNumeral
  split <;> rfl

theorem negative_layout (s : Style) (negative : Bool) (d : Scaled) :
    (s.layout negative d).negative = negative := by
  rw [Style.layout]
  split
  · exact negative_plainNumeral ..
  · rfl

/-! ### Reading what was written -/

theorem scaled_zero (negative : Bool) :
    (dataStyle.plainNumeral negative [.zero] 0).scaled =
      .ofModel (.pack (.zero (if negative then .negative else .positive))) := by
  cases negative <;> decide +kernel

/-- The digits of a float are read as its parts if they are few. -/
theorem toModel_scaledSize_layout {d : Scaled} {negative : Bool} (identifies : Identifies d z)
    (canonical : z.Canonical) (short : (dataStyle.layout negative d).Short) :
    (dataStyle.layout negative d).scaledSize.toModel =
      .pack (.finite .positive z.significand z.exponent canonical.pos) := by
  have contains := identifies.contains
  rw [← rat_layout dataStyle negative d, Numeral.rat] at contains
  rw [short.scaledSize_eq (exponent_layout_le identifies.nonzero short)]
  exact scaleBy_of_contains (contains.coefficient_pos canonical.pos) short.digits short.table canonical contains

/-- **A float that was written with few digits is read back as it was.** -/
theorem scaled_numeral (h : x.isFinite = true) (short : (dataStyle.numeral x).Short) :
    (dataStyle.numeral x).scaled = x := by
  have whole : Float.ofModel (.pack x.toModel.unpack) = x := by rw [pack_unpack_model]
  refine Eq.trans ?_ whole
  rw [numeral_eq] at short ⊢
  by_cases zero : (Binary.ofBits x.toBits).significand = 0
  · rw [if_pos zero, unpack_of_zero zero]
    exact scaled_zero _
  · rw [if_neg zero] at short ⊢
    have canonical := Binary.canonical_ofBits h zero
    have size := toModel_scaledSize_layout (identifies_shortest canonical.pos dataStyle.tie) canonical
      short
    rw [Numeral.scaled, negative_layout, unpack_of_significand h zero, signOf]
    by_cases negative : isNegative x = true
    · rw [if_pos negative, if_pos negative]
      show Float.ofModel (.pack (Float.toModel _).unpack.neg) = _
      rw [size, canonical.unpack_pack]
      rfl
    · rw [if_neg negative, if_neg negative, ← size]

example : (dataStyle.numeral 10488164.2).Short ∧ ¬ (dataStyle.numeral 10488164.200000001).Short := by
  decide +kernel

end MinerWatch.Decimal
