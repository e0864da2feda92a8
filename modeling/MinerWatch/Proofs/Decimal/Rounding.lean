import Mathlib
/-!
What rounding does to a finite float.

The operations on floats work on a significand and a power of two, round, and pack the
result into 64 bits. Two facts about them carry all that is said of floats here: rounding a
long significand adds at most a part in `2 ^ 52` (`roundWithAccuracy_long`), and a
result overflows only if its power of two exceeds 971 (`isFinite_pack`).
-/

namespace MinerWatch.Decimal

open Float.Model Float.Model.UnpackedFloat

/-! ### Shifting -/

theorem mantissa_shiftRight (em : ExtendedMantissa) (n : Nat) :
    (em >>> n).mantissa = em.mantissa / 2 ^ n := by
  show (n.repeat ExtendedMantissa.shiftRightOne em).mantissa = _
  induction n with
  | zero => rw [Nat.pow_zero, Nat.div_one]; rfl
  | succ n ih =>
      rw [Nat.repeat, ExtendedMantissa.shiftRightOne, ih, Nat.div_div_eq_div_mul, Nat.pow_succ]

/-- Rounding goes to the next significand or not at all. -/
theorem roundedMantissa_bounds (em : ExtendedMantissa) :
    em.mantissa ≤ em.roundedMantissa ∧ em.roundedMantissa ≤ em.mantissa + 1 := by
  have parity := Nat.mod_lt em.mantissa (show 0 < 2 by decide)
  rcases em with ⟨m, round, sticky⟩
  cases round <;> cases sticky <;>
    simp only [ExtendedMantissa.roundedMantissa, ExtendedMantissa.accuracy,
      Accuracy.roundToNearestEven] at * <;> omega

theorem mantissa_ofMantissaAndAccuracy (m : Nat) (acc : Accuracy) :
    (ExtendedMantissa.ofMantissaAndAccuracy m acc).mantissa = m := by
  unfold ExtendedMantissa.ofMantissaAndAccuracy
  split <;> rfl

/-- How far a significand is shifted before it is rounded. -/
def shiftOf (m : Nat) (e : Int) : Nat :=
  (Format.binary64.targetExponent (totalExponent m e) - e).toNat

theorem shiftOf_eq (m : Nat) (e : Int) :
    (shiftOf m e : Int) = max 0 (max ((m.log2 : Int) - 52) (-1074 - e)) := by
  have bits : (Format.binary64.mantissaBits : Int) = 53 := rfl
  have least : Format.binary64.minExponent = -1074 := rfl
  simp only [shiftOf, Format.targetExponent, totalExponent, bits, least]
  omega

/-- The significand between the two shifts of a rounding. -/
def roundedOf (m : Nat) (e : Int) (acc : Accuracy) : Nat :=
  (ExtendedMantissa.ofMantissaAndAccuracy m acc >>> shiftOf m e).roundedMantissa

theorem roundWithAccuracy_eq_shifted (sign : Sign) (m : Nat) (e : Int) (acc : Accuracy) :
    roundWithAccuracy .binary64 sign m e acc =
      if h : roundedOf m e acc / 2 ^ shiftOf (roundedOf m e acc) (e + shiftOf m e) = 0 then .zero sign
      else .finite sign
        (roundedOf m e acc / 2 ^ shiftOf (roundedOf m e acc) (e + shiftOf m e))
        (e + shiftOf m e + shiftOf (roundedOf m e acc) (e + shiftOf m e)) (Nat.pos_of_ne_zero h) := by
  simp only [roundWithAccuracy, shiftToTargetExponent, shiftToExponent, mantissa_shiftRight,
    mantissa_ofMantissaAndAccuracy]
  rfl

theorem exists_rounded (sign : Sign) (m : Nat) (e : Int) (acc : Accuracy) :
    ∃ r : Nat, m / 2 ^ shiftOf m e ≤ r ∧ r ≤ m / 2 ^ shiftOf m e + 1 ∧
      roundWithAccuracy .binary64 sign m e acc =
        if h : r / 2 ^ shiftOf r (e + shiftOf m e) = 0 then .zero sign
        else .finite sign (r / 2 ^ shiftOf r (e + shiftOf m e))
          (e + shiftOf m e + shiftOf r (e + shiftOf m e)) (Nat.pos_of_ne_zero h) := by
  have bounds := roundedMantissa_bounds
    (ExtendedMantissa.ofMantissaAndAccuracy m acc >>> shiftOf m e)
  rw [mantissa_shiftRight, mantissa_ofMantissaAndAccuracy] at bounds
  exact ⟨_, bounds.1, bounds.2, roundWithAccuracy_eq_shifted sign m e acc⟩

theorem shifted_lt (m : Nat) (e : Int) : m / 2 ^ shiftOf m e < 2 ^ 53 := by
  have shift := shiftOf_eq m e
  refine Nat.div_lt_of_lt_mul (Nat.lt_of_lt_of_le Nat.lt_log2_self ?_)
  rw [← Nat.pow_add]
  exact Nat.pow_le_pow_right (by decide) (by omega)

/-- A rounded significand has to be shifted once more only if it took a carry. -/
theorem shiftOf_rounded {m r : Nat} {e : Int} (h : r ≤ 2 ^ 53) :
    (shiftOf r (e + shiftOf m e) : Int) = max 0 ((r.log2 : Int) - 52) ∧ r.log2 ≤ 53 := by
  have first := shiftOf_eq m e
  have second := shiftOf_eq r (e + shiftOf m e)
  have short : r.log2 ≤ 53 := by
    by_cases zero : r = 0
    · rw [zero]
      decide
    · exact Nat.le_of_lt_succ ((Nat.log2_lt zero).mpr (by omega))
  omega

/-- The power of two of a rounded result is the one it starts from or the one its size asks for,
up to a carry. -/
theorem exponent_roundWithAccuracy (sign : Sign) (m : Nat) (e : Int) (acc : Accuracy) :
    roundWithAccuracy .binary64 sign m e acc = .zero sign ∨
      ∃ m' e' h, roundWithAccuracy .binary64 sign m e acc = .finite sign m' e' h ∧
        e' ≤ max e (max ((m.log2 : Int) + e - 52) (-1074)) + 1 := by
  obtain ⟨r, -, le, eq⟩ := exists_rounded sign m e acc
  have first := shiftOf_eq m e
  have second := (shiftOf_rounded (m := m) (e := e) (Nat.le_trans le (shifted_lt m e)))
  rw [eq]
  split
  · exact .inl rfl
  · rename_i filled
    exact .inr ⟨_, _, Nat.pos_of_ne_zero filled, rfl, by omega⟩

/-! ### Sizes -/

/-- The number `m * 2 ^ e`. -/
def dyadic (m : Nat) (e : Int) : ℚ := m * 2 ^ e

/-- What one rounding may add: at most a part in `2 ^ 52`. -/
def slack : ℚ := 1 + 1 / 2 ^ 52

theorem dyadic_nonneg (m : Nat) (e : Int) : 0 ≤ dyadic m e := by
  unfold dyadic
  positivity

theorem dyadic_shift (m k : Nat) (e : Int) : dyadic m (e + k) = dyadic (m * 2 ^ k) e := by
  rw [dyadic, dyadic, zpow_add₀ (by norm_num), zpow_natCast]
  push_cast
  ring

theorem dyadic_mul (m n : Nat) (d e : Int) :
    dyadic (m * n) (d + e) = dyadic m d * dyadic n e := by
  rw [dyadic, dyadic, dyadic, zpow_add₀ (by norm_num)]
  push_cast
  ring

theorem dyadic_le_dyadic {m n : Nat} (h : m ≤ n) (e : Int) : dyadic m e ≤ dyadic n e := by
  have cast : (m : ℚ) ≤ n := by exact_mod_cast h
  exact mul_le_mul_of_nonneg_right cast (by positivity)

/-- A significand in the normal form of a float: it has exactly 53 bits. -/
def Normal (m : Nat) : Prop := 2 ^ 52 ≤ m ∧ m < 2 ^ 53

/-- A rounded significand exceeds the exact one by at most a unit of its last place. -/
theorem dyadic_rounded_le {m r : Nat} {e : Int} (long : 2 ^ 52 ≤ m) (shift : shiftOf m e = m.log2 - 52)
    (le : r ≤ m / 2 ^ shiftOf m e + 1) : dyadic r (e + shiftOf m e) ≤ dyadic m e * slack := by
  have bits : 52 ≤ m.log2 := (Nat.le_log2 (by omega)).mpr long
  have grown : r * 2 ^ shiftOf m e ≤ m + 2 ^ shiftOf m e := by
    refine Nat.le_trans (Nat.mul_le_mul_right _ le) ?_
    rw [Nat.add_mul, Nat.one_mul]
    exact Nat.add_le_add_right (Nat.div_mul_le_self _ _) _
  have unit : 2 ^ shiftOf m e * 2 ^ 52 ≤ m := by
    rw [← Nat.pow_add, shift, Nat.sub_add_cancel bits]
    exact Nat.log2_self_le (by omega)
  have grown : ((r * 2 ^ shiftOf m e : Nat) : ℚ) ≤ m + (2 ^ shiftOf m e : Nat) := by
    exact_mod_cast grown
  have unit : ((2 ^ shiftOf m e : Nat) : ℚ) * 2 ^ 52 ≤ m := by exact_mod_cast unit
  have pos : (0 : ℚ) < 2 ^ e := by positivity
  rw [dyadic_shift]
  calc dyadic (r * 2 ^ shiftOf m e) e
      ≤ (m * slack) * 2 ^ e := by
        refine mul_le_mul_of_nonneg_right (grown.trans ?_) pos.le
        rw [slack]
        linarith
    _ = dyadic m e * slack := by rw [dyadic]; ring

/-- A carry makes one bit too many, and the second shift takes it away again. -/
theorem normal_shifted {r k : Nat} (low : 2 ^ 52 ≤ r) (high : r ≤ 2 ^ 53)
    (shift : (k : Int) = max 0 ((r.log2 : Int) - 52)) : Normal (r / 2 ^ k) := by
  rcases Nat.lt_or_eq_of_le high with short | carry
  · have log : r.log2 < 53 := (Nat.log2_lt (by omega)).mpr short
    obtain rfl : k = 0 := by omega
    rw [Nat.pow_zero, Nat.div_one]
    exact ⟨low, short⟩
  · have log : r.log2 = 53 := by rw [carry, Nat.log2_two_pow]
    obtain rfl : k = 1 := by omega
    rw [carry]
    exact ⟨by decide, by decide⟩

/-- Rounding a significand that is long enough gives a normal one and adds little. -/
theorem roundWithAccuracy_long (sign : Sign) {m : Nat} {e : Int} (long : 2 ^ 52 ≤ m)
    (range : -1022 ≤ (m.log2 : Int) + e) (acc : Accuracy) :
    ∃ m' e' h, roundWithAccuracy .binary64 sign m e acc = .finite sign m' e' h ∧ Normal m' ∧
      (m.log2 : Int) + e - 52 ≤ e' ∧ dyadic m' e' ≤ dyadic m e * slack := by
  obtain ⟨r, ge, le, eq⟩ := exists_rounded sign m e acc
  have bits : 52 ≤ m.log2 := (Nat.le_log2 (by omega)).mpr long
  have first := shiftOf_eq m e
  have shift : shiftOf m e = m.log2 - 52 := by omega
  have low : 2 ^ 52 ≤ m / 2 ^ shiftOf m e := by
    rw [Nat.le_div_iff_mul_le (Nat.two_pow_pos _), ← Nat.pow_add, shift]
    refine Nat.le_trans (Nat.pow_le_pow_right (by decide) ?_) (Nat.log2_self_le (by omega))
    omega
  have high : r ≤ 2 ^ 53 := Nat.le_trans le (shifted_lt m e)
  obtain ⟨second, -⟩ := shiftOf_rounded (m := m) (e := e) high
  have normal := normal_shifted (Nat.le_trans low ge) high second
  have filled : r / 2 ^ shiftOf r (e + shiftOf m e) ≠ 0 := fun zero => by
    have := normal.1
    omega
  refine ⟨_, _, Nat.pos_of_ne_zero filled, by rw [eq, dif_neg filled], normal, by omega, ?_⟩
  rw [dyadic_shift _ (shiftOf r _)]
  exact (dyadic_le_dyadic (Nat.div_mul_le_self ..) _).trans (dyadic_rounded_le long shift le)

/-! ### Packing -/

/-- A number that a float can hold: zero, or one whose power of two is not too large. -/
def Holdable : UnpackedFloat → Prop
  | .zero _ => True
  | .finite _ _ e _ => e ≤ 971
  | _ => False

theorem isFinite_unpack_iff (bits : BitVec Format.binary64.numBits) :
    (UnpackedFloat.unpack .binary64 bits).isFinite = true ↔
      @unpackExponent .binary64 bits ≠ -1#_ := by
  simp only [UnpackedFloat.unpack]
  split
  · rename_i all
    split <;> exact ⟨Bool.noConfusion, fun ne => absurd all ne⟩
  · rename_i some
    split
    · split <;> exact ⟨fun _ => some, fun _ => rfl⟩
    · exact ⟨fun _ => some, fun _ => rfl⟩

/-- How a number that a float can hold is packed: with its exponent, or with none if it is too
short to be in normal form. -/
theorem pack_of_le (s : Sign) {m : Nat} {e : Int} (pos : 0 < m) (h : e ≤ 971) :
    UnpackedFloat.pack .binary64 (.finite s m e pos) =
      if m.log2 + 1 = 53 then
        packComponents .binary64 s (BitVec.ofNat 11 (e + 1075).toNat) (BitVec.ofNat 52 m)
      else packComponents .binary64 s 0#11 (BitVec.ofNat 52 m) := by
  have field : (e + Format.binary64.exponentBias + Format.binary64.mantissaBitsWithoutImplicit) =
      e + 1075 := by
    show e + 1023 + 52 = e + 1075
    omega
  have fits : ¬ 2 ^ Format.binary64.exponentBits ≤ (e + 1075).toNat + 1 := by
    show ¬ 2048 ≤ _
    omega
  simp only [UnpackedFloat.pack, field, if_neg fits]
  rfl

theorem exponentField_ne {n : Nat} (h : n < 2047) : BitVec.ofNat 11 n ≠ -1#11 := by
  intro eq
  have values := congrArg BitVec.toNat eq
  rw [BitVec.toNat_ofNat, BitVec.neg_one_eq_allOnes, BitVec.toNat_allOnes] at values
  omega

theorem isFinite_pack {u : UnpackedFloat} (h : Holdable u) : (Float.Model.pack u).isFinite = true := by
  show (UnpackedFloat.unpack .binary64 (UnpackedFloat.pack .binary64 u)).isFinite = true
  rw [isFinite_unpack_iff]
  cases u with
  | infinity | notANumber => exact h.elim
  | zero s => exact unpackExponent_packComponents ▸ exponentField_ne (n := 0) (by decide)
  | finite s m e pos =>
      have le : e ≤ 971 := h
      rw [pack_of_le s pos le]
      split <;> rw [unpackExponent_packComponents]
      · exact exponentField_ne (by omega)
      · exact exponentField_ne (n := 0) (by decide)

theorem toNat_implicit (f : BitVec 52) : (1#1 ++ f).toNat = 2 ^ 52 + f.toNat := by
  rw [BitVec.toNat_append, ← Nat.shiftLeft_add_eq_or_of_lt f.isLt]
  rfl

theorem log2_of_normal {m : Nat} (h : Normal m) : m.log2 = 52 := by
  have upper := (Nat.log2_lt (by have := h.1; omega)).mpr h.2
  have lower := (Nat.le_log2 (by have := h.1; omega)).mpr h.1
  omega

/-- What bits with an exponent denote. -/
theorem unpack_of_exponent (bits : BitVec Format.binary64.numBits)
    (some : @unpackExponent .binary64 bits ≠ -1#_)
    (filled : @unpackExponent .binary64 bits ≠ 0#_) :
    ∃ pos, UnpackedFloat.unpack .binary64 bits =
      .finite (Sign.ofBitVec (@unpackSign .binary64 bits))
        (1#1 ++ @unpackMantissa .binary64 bits).toNat
        ((@unpackExponent .binary64 bits).toNat - 1075) pos := by
  have pos : 0 < (1#1 ++ @unpackMantissa .binary64 bits).toNat := by
    rw [BitVec.toNat_append]
    exact Nat.lt_of_lt_of_le (by decide : 0 < (1#1).toNat <<< 52) Nat.left_le_or
  simp only [UnpackedFloat.unpack, some, filled, if_false]
  exact ⟨pos, rfl⟩

/-- A number in normal form is packed without loss. -/
theorem unpack_pack_normal (s : Sign) {m : Nat} {e : Int} (pos : 0 < m) (normal : Normal m)
    (low : -1074 ≤ e) (high : e ≤ 971) :
    (Float.Model.pack (.finite s m e pos)).unpack = .finite s m e pos := by
  show UnpackedFloat.unpack .binary64 (UnpackedFloat.pack .binary64 _) = _
  rw [pack_of_le s pos high, if_pos (by rw [log2_of_normal normal])]
  have field : (BitVec.ofNat 11 (e + 1075).toNat).toNat = (e + 1075).toNat := by
    rw [BitVec.toNat_ofNat]
    omega
  have filled : BitVec.ofNat 11 (e + 1075).toNat ≠ 0#11 := by
    intro eq
    rw [eq, BitVec.toNat_ofNat] at field
    omega
  have exponent : ((BitVec.ofNat 11 (e + 1075).toNat).toNat : Int) - 1075 = e := by
    rw [field]
    omega
  obtain ⟨pos', eq⟩ := unpack_of_exponent
    (packComponents .binary64 s (BitVec.ofNat 11 (e + 1075).toNat) (BitVec.ofNat 52 m))
    (unpackExponent_packComponents ▸ exponentField_ne (by omega))
    (unpackExponent_packComponents ▸ filled)
  refine eq.trans ?_
  simp only [unpackSign_packComponents, unpackMantissa_packComponents,
    unpackExponent_packComponents, Sign.ofBitVec_toBitVec]
  congr 1
  rw [toNat_implicit, BitVec.toNat_ofNat]
  have := normal.1
  have := normal.2
  omega

end MinerWatch.Decimal
