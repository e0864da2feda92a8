import MinerWatch.Device.Info
import MinerWatch.Proofs.Decimal.Arithmetic
/-!
The hashrate that a device promises.

It is meant to be the whole part of a thousandth of clock times cores. But the cores are divided
first, so that the quotient is rounded before the product is. `hashrate_is_exact_unless_missed` says
where that shows (`Missed`): where the product is a multiple of a thousand and falls just below it, and
for very large products also where it is one short of a multiple and reaches it.
-/

namespace MinerWatch

open Decimal

/-- That a thousandth of `n` was rounded to `y` shows in its whole part. -/
inductive Missed (n : Nat) (y : ℚ) : Prop
  /-- A whole number of thousands is fallen short of. -/
  | fallen (whole : 1000 ∣ n) (less : y < (n / 1000 : Nat))
  /-- The next thousand, one away, is reached. -/
  | reached (next : 1000 ∣ n + 1) (large : 1000 * 2 ^ 42 ≤ n) (more : (n / 1000 + 1 : Nat) ≤ y)

/-! ### The whole part of a thousandth -/

section Thousandth

variable {n : Nat} {v y : ℚ}

theorem thousandth_eq (n : Nat) : (n : ℚ) / 1000 = (n / 1000 : Nat) + (n % 1000 : Nat) / 1000 := by
  have parts : (1000 * (n / 1000 : Nat) + (n % 1000 : Nat) : ℚ) = n := by
    exact_mod_cast Nat.div_add_mod n 1000
  linear_combination -parts / 1000

/-- What is off from a thousandth by one part in `2 ^ 53` is close to it. -/
theorem close_of_off {m : ℚ} (off : |n / 1000 - v| * 2 ^ 53 ≤ n / 1000)
    (size : n / 1000 < m * 2 ^ 53) : n / 1000 - m < v ∧ v < n / 1000 + m := by
  have close := (mul_lt_mul_iff_left₀ (by norm_num)).mp (off.trans_lt size)
  obtain ⟨low, high⟩ := abs_lt.mp close
  constructor <;> linarith

/-- A product that is not zero is large enough for a float in normal form. -/
theorem large_of_off (off : |n / 1000 - v| * 2 ^ 53 ≤ n / 1000) (pos : 0 < v) :
    (2 : ℚ) ^ (-1022 : Int) ≤ v := by
  have filled : 0 < n := by
    apply Nat.pos_of_ne_zero
    intro zero
    rw [zero, Nat.cast_zero, zero_div, zero_sub, abs_neg, abs_of_pos pos] at off
    linarith
  have one : (1 : ℚ) ≤ n := by exact_mod_cast filled
  obtain ⟨low, -⟩ := close_of_off (m := n / 2000) off (by linarith)
  calc (2 : ℚ) ^ (-1022 : Int) ≤ 2 ^ (-11 : Int) := zpow_le_zpow_right₀ (by norm_num) (by norm_num)
    _ ≤ 1 / 2000 := by norm_num
    _ ≤ n / 1000 - n / 2000 := by linarith
    _ ≤ v := low.le

/-- The next whole number is reached only from one short of a thousand, by large products. -/
theorem missed_of_ge (off : |n / 1000 - v| * 2 ^ 53 ≤ n / 1000) (rounds : RoundsTo v y)
    (nonneg : 0 ≤ v) (small : n < 2 ^ 53) (more : (n / 1000 + 1 : Nat) ≤ y) : Missed n y := by
  have bound : (n : ℚ) < 2 ^ 53 := by exact_mod_cast small
  have less : n % 1000 < 1000 := Nat.mod_lt n (by decide)
  by_contra fits
  apply not_lt_of_ge more
  have value := thousandth_eq n
  -- One short of a thousand the next whole number is near, so a finer place is needed to stay below.
  by_cases edge : n % 1000 = 999
  · have short : n < 1000 * 2 ^ 42 := by
      by_contra large
      exact fits (.reached (by omega) (not_lt.mp large) more)
    have bound : (n : ℚ) < 1000 * 2 ^ 42 := by exact_mod_cast short
    obtain ⟨-, high⟩ := close_of_off (m := 1 / 2 ^ 11) off (by linarith)
    apply rounds.lt_of_gap (k := 11) nonneg (by omega) (by decide)
    rw [edge] at value
    push_cast at value ⊢
    linarith
  · have rest : ((n % 1000 : Nat) : ℚ) ≤ 998 := by
      have rest : n % 1000 ≤ 998 := by omega
      exact_mod_cast rest
    obtain ⟨-, high⟩ := close_of_off (m := 1 / 1000) off (by linarith)
    apply rounds.lt_of_gap (k := 9) nonneg (by omega) (by decide)
    push_cast
    linarith

/-- The whole part is fallen short of only by whole thousands. -/
theorem missed_of_lt (off : |n / 1000 - v| * 2 ^ 53 ≤ n / 1000) (rounds : RoundsTo v y)
    (small : n < 2 ^ 53) (less : y < (n / 1000 : Nat)) : Missed n y := by
  have bound : (n : ℚ) < 2 ^ 53 := by exact_mod_cast small
  obtain ⟨low, -⟩ := close_of_off (m := 1 / 1000) off (by linarith)
  refine .fallen (Nat.dvd_of_mod_eq_zero (by_contra fun rest => ?_)) less
  have filled : (1 : ℚ) ≤ (n % 1000 : Nat) := by exact_mod_cast Nat.pos_of_ne_zero rest
  have value := thousandth_eq n
  have double : IsDouble (n / 1000 : Nat) := isDouble_natCast (by omega)
  exact absurd (rounds.le_of_le double (by linarith)) (not_le.mpr less)

/-- **If a thousandth is off by no more than one rounding before it is rounded itself, then its whole part
is off by no more than one, and only where that is missed.** -/
theorem floor_thousandth (off : |n / 1000 - v| * 2 ^ 53 ≤ n / 1000) (rounds : RoundsTo v y)
    (nonneg : 0 ≤ v) (small : n < 2 ^ 53) :
    (⌊y⌋₊ = n / 1000 ↔ ¬ Missed n y) ∧ ⌊y⌋₊ ≤ n / 1000 + 1 ∧ n / 1000 ≤ ⌊y⌋₊ + 1 := by
  have bound : (n : ℚ) < 2 ^ 53 := by exact_mod_cast small
  have last : ((n % 1000 : Nat) : ℚ) ≤ 999 := by
    have less : n % 1000 < 1000 := Nat.mod_lt n (by decide)
    exact_mod_cast Nat.le_of_lt_succ less
  have value := thousandth_eq n
  obtain ⟨low, high⟩ := close_of_off (m := 1 / 1000) off (by linarith)
  refine ⟨⟨fun exact_ missed => ?_, fun fits => ?_⟩, ?_, ?_⟩
  · cases missed with
    | fallen whole less => exact absurd exact_ ((Nat.floor_lt rounds.nonneg).mpr less).ne
    | reached next large more =>
        exact absurd exact_ (Nat.lt_of_succ_le (Nat.le_floor more)).ne'
  · apply (Nat.floor_eq_iff rounds.nonneg).mpr
    constructor
    · exact not_lt.mp fun less => fits (missed_of_lt off rounds small less)
    · apply not_le.mp
      intro more
      exact fits (missed_of_ge off rounds nonneg small (by exact_mod_cast more))
  · apply Nat.floor_le_of_le
    apply rounds.ge_of_ge (isDouble_natCast (by omega))
    push_cast
    linarith
  · apply Nat.sub_le_iff_le_add.mp
    apply Nat.le_floor
    apply rounds.le_of_le (isDouble_natCast (by omega))
    rcases Nat.eq_zero_or_pos (n / 1000) with none_ | some_
    · simpa [none_] using nonneg
    · rw [Nat.cast_sub some_, Nat.cast_one]
      have rest : (0 : ℚ) ≤ (n % 1000 : Nat) := Nat.cast_nonneg _
      linarith

end Thousandth

/-! ### A product with a quotient -/

section Product

variable {f c : Nat} {x y : ℚ}

theorem thousandth_large {c : ℚ} (one : 1 ≤ c) : (2 : ℚ) ^ (-1022 : Int) ≤ c / 1000 := by
  calc (2 : ℚ) ^ (-1022 : Int) ≤ 2 ^ (-10 : Int) := zpow_le_zpow_right₀ (by norm_num) (by norm_num)
    _ ≤ 1 / 1000 := by norm_num
    _ ≤ c / 1000 := by gcongr

/-- Before it is rounded itself, the product is off by as much as the quotient. -/
theorem off_of_quotient (f : Nat) (quotient : RoundsTo (c / 1000) x) :
    |((f * c : Nat) / 1000 : ℚ) - f * x| * 2 ^ 53 ≤ (f * c : Nat) / 1000 := by
  rcases Nat.eq_zero_or_pos c with rfl | pos
  · rw [Nat.cast_zero, zero_div] at quotient
    simp [roundsTo_zero quotient]
  · have off := quotient.abs_sub_mul_le (thousandth_large (by exact_mod_cast pos))
    have factor : (0 : ℚ) ≤ f := Nat.cast_nonneg f
    have value : ((f * c : Nat) / 1000 : ℚ) = f * (c / 1000) := by
      push_cast
      ring
    rw [value, ← mul_sub, abs_mul, abs_of_nonneg factor, mul_assoc]
    exact mul_le_mul_of_nonneg_left off factor

theorem isDouble_eighths {m : Nat} (short : m < 2 ^ 53) : IsDouble (m / 8) := by
  refine ⟨m, -3, short, by decide, ?_⟩
  rw [dyadic, div_eq_mul_inv]
  norm_num

/-- The whole part of the exact thousandth is not missed. -/
theorem not_missed_self (n : Nat) : ¬ Missed n (n / 1000) := by
  have value := thousandth_eq n
  have less : ((n % 1000 : Nat) : ℚ) < 1000 := by exact_mod_cast Nat.mod_lt n (by decide)
  have rest : (0 : ℚ) ≤ (n % 1000 : Nat) := Nat.cast_nonneg _
  intro missed
  cases missed with
  | fallen whole fallen => linarith
  | reached next large more =>
      push_cast at more
      linarith

/-- Nothing is missed if the cores make up whole eighths of a thousand. -/
theorem not_missed_of_dvd (quotient : RoundsTo (c / 1000) x) (product : RoundsTo (f * x) y)
    (small : f * c < 2 ^ 53) (eighths : 125 ∣ c) : ¬ Missed (f * c) y := by
  obtain ⟨k, rfl⟩ := eighths
  have value : ((f * (125 * k) : Nat) : ℚ) / 1000 = (f * k : Nat) / 8 := by
    push_cast
    ring
  have short : f * k < 2 ^ 53 :=
    Nat.lt_of_le_of_lt (Nat.mul_le_mul_left f (Nat.le_mul_of_pos_left k (by decide))) small
  have exact_ : f * x = (f * k : Nat) / 8 := by
    rcases Nat.eq_zero_or_pos f with rfl | pos
    · simp
    · have whole : ((125 * k : Nat) : ℚ) / 1000 = k / 8 := by
        push_cast
        ring
      rw [whole] at quotient
      have one : k < 2 ^ 53 := Nat.lt_of_le_of_lt (Nat.le_mul_of_pos_left k pos) short
      rw [quotient.eq_self (isDouble_eighths one)]
      push_cast
      ring
  rw [exact_] at product
  rw [product.eq_self (isDouble_eighths short), ← value]
  exact not_missed_self _

end Product

/-! ### The device's floats -/

namespace DeviceInfo

/-- All cores of the device. -/
def cores (i : DeviceInfo) : Nat :=
  i.coresPerChip.toNat * i.chipCount.toNat

variable {i : DeviceInfo} {f : Nat} {x y : ℚ}

theorem amount_word (w : UInt32) : Amount w.toFloat w.toNat := by
  have word : w.toFloat = w.toNat.toUInt64.toFloat := by
    have same : w.toNat.toUInt64 = w.toUInt64 := by simp
    rw [same]
    rfl
  have short : w.toNat < 2 ^ 53 := Nat.lt_trans w.toNat_lt (by norm_num)
  exact word ▸ amount_toFloat short

theorem denotes_thousand : Denotes 1000.0 1000 := by
  have power : isPowerOfTen 1000.0 3 = true := by decide
  have denotes := denotes_of_isPowerOfTen power
  norm_num at denotes
  exact denotes

theorem cores_lt (i : DeviceInfo) : i.cores < 2 ^ 64 := by
  calc i.cores < 2 ^ 32 * 2 ^ 32 := Nat.mul_lt_mul'' i.coresPerChip.toNat_lt i.chipCount.toNat_lt
    _ = 2 ^ 64 := by norm_num

/-- The number of cores is a float, which may be rounded. -/
theorem amount_cores {c : ℚ} (rounds : RoundsTo i.cores c) :
    Amount (i.coresPerChip.toFloat * i.chipCount.toFloat) c := by
  have product : ((i.cores : Nat) : ℚ) = i.coresPerChip.toNat * i.chipCount.toNat := by
    rw [cores, Nat.cast_mul]
  rw [product] at rounds
  apply amount_mul (amount_word _) (amount_word _) rounds
  · rw [← product]
    intro pos
    have one : (1 : ℚ) ≤ i.cores := by exact_mod_cast pos
    exact least_normal_le one
  · rw [← product]
    calc (i.cores : ℚ) ≤ 2 ^ 64 := by exact_mod_cast i.cores_lt.le
      _ ≤ 2 ^ 1023 := pow_le_pow_right₀ (by norm_num) (by norm_num)

/-- The quotient is a float, of cores that may have been rounded. -/
theorem amount_quotient {c : ℚ} (rounds : RoundsTo i.cores c) (quotient : RoundsTo (c / 1000) x) :
    Amount (i.coresPerChip.toFloat * i.chipCount.toFloat / 1000.0) x := by
  have one (pos : 0 < c) : 1 ≤ c := by
    have filled : 0 < i.cores := by
      apply Nat.pos_of_ne_zero
      intro zero
      rw [zero, Nat.cast_zero] at rounds
      exact pos.ne' (roundsTo_zero rounds)
    have double : IsDouble 1 := by exact_mod_cast isDouble_natCast (n := 1) (by decide)
    exact rounds.le_of_le double (by exact_mod_cast filled)
  have size : c ≤ 2 ^ 64 := by
    apply rounds.ge_of_ge (isDouble_two_pow 64)
    exact_mod_cast i.cores_lt.le
  apply amount_div (amount_cores rounds) denotes_thousand quotient one (by norm_num)
  · exact fun pos => thousandth_large (one pos)
  · calc c / 1000 ≤ 2 ^ 64 := by linarith
      _ ≤ 2 ^ 1023 := pow_le_pow_right₀ (by norm_num) (by norm_num)

/-- The cores are not rounded unless the clock is zero, and then that does not matter. -/
theorem exists_amount_quotient (small : f * i.cores < 2 ^ 53)
    (quotient : RoundsTo (i.cores / 1000) x) :
    ∃ z, Amount (i.coresPerChip.toFloat * i.chipCount.toFloat / 1000.0) z ∧ f * z = f * x := by
  obtain ⟨c, rounds⟩ := exists_roundsTo i.cores
  rcases Nat.eq_zero_or_pos f with rfl | pos
  · obtain ⟨z, other⟩ := exists_roundsTo (c / 1000)
    exact ⟨z, amount_quotient rounds other, by simp⟩
  · have few : i.cores ≤ 2 ^ 53 := Nat.le_trans (Nat.le_mul_of_pos_left _ pos) small.le
    have same : c = i.cores := rounds.eq_self (isDouble_natCast few)
    exact ⟨x, amount_quotient rounds (same ▸ quotient), rfl⟩

/-- **The promised hashrate is what two roundings leave of a thousandth of clock times cores.** Its whole
part is off by at most one, exactly where that is missed, and never if the cores are a multiple of 125. -/
theorem hashrate_is_exact_unless_missed (i : DeviceInfo) (finite : i.frequency.isFinite = true)
    (whole : number i.frequency = f) (small : f * i.cores < 2 ^ 53)
    (quotient : RoundsTo (i.cores / 1000) x) (product : RoundsTo (f * x) y) :
    i.nominalHashrate.toNat = ⌊y⌋₊ ∧
      (i.nominalHashrate.toNat = f * i.cores / 1000 ↔ ¬ Missed (f * i.cores) y) ∧
      i.nominalHashrate.toNat ≤ f * i.cores / 1000 + 1 ∧
      f * i.cores / 1000 ≤ i.nominalHashrate.toNat + 1 ∧
      (125 ∣ i.cores → i.nominalHashrate.toNat = f * i.cores / 1000) := by
  have off := off_of_quotient f quotient
  have nonneg : 0 ≤ f * x := mul_nonneg (Nat.cast_nonneg f) quotient.nonneg
  have bound : ((f * i.cores : Nat) : ℚ) < 2 ^ 53 := by exact_mod_cast small
  obtain ⟨-, high⟩ := close_of_off (m := 1) off (by linarith)
  obtain ⟨fits, above, below⟩ := floor_thousandth off product nonneg small
  have cut : i.nominalHashrate.toNat = ⌊y⌋₊ := by
    obtain ⟨z, divided, same⟩ := exists_amount_quotient small quotient
    have amount : Amount (i.frequency * (i.coresPerChip.toFloat * i.chipCount.toFloat / 1000.0)) y := by
      apply amount_mul (amount_of_number finite whole) divided (same ▸ product)
      · exact same ▸ large_of_off off
      · rw [same]
        calc f * x ≤ 2 ^ 53 := by linarith
          _ ≤ 2 ^ 1023 := pow_le_pow_right₀ (by norm_num) (by norm_num)
    rw [nominalHashrate, amount.toNat_toUInt64]
    omega
  rw [cut]
  exact ⟨rfl, fits, above, below, fun eighths =>
    fits.mpr (not_missed_of_dvd quotient product small eighths)⟩

/-- A float in normal form whose number is computed. -/
theorem number_of_parts {x : Float} {m : Nat} {e : Int} (positive : isNegative x = false)
    (significand : (Binary.ofBits x.toBits).significand = m)
    (exponent : (Binary.ofBits x.toBits).exponent = e) : number x = dyadic m e := by
  rw [number, significand, exponent, positive]
  rfl

theorem placeholder_promises :
    ∃ x y, RoundsTo (placeholder.cores / 1000) x ∧ RoundsTo ((485 : Nat) * x) y ∧
      placeholder.nominalHashrate.toNat = ⌊y⌋₊ ∧ placeholder.nominalHashrate.toNat = 325 := by
  have clock : number placeholder.frequency = (485 : Nat) := by
    rw [number_of_parts (m := 485 * 2 ^ 44) (e := -44) (by decide) (by decide) (by decide), dyadic]
    norm_num
  obtain ⟨x, quotient⟩ := exists_roundsTo (placeholder.cores / 1000)
  obtain ⟨y, product⟩ := exists_roundsTo ((485 : Nat) * x)
  have promise := hashrate_is_exact_unless_missed placeholder (by decide) clock (by decide)
    quotient product
  have apart : ¬ Missed (485 * placeholder.cores) y := by
    intro missed
    cases missed with
    | fallen whole => exact absurd whole (by decide)
    | reached next => exact absurd next (by decide)
  exact ⟨x, y, quotient, product, promise.1, promise.2.1.mpr apart⟩

/-- At 500 MHz the 8046 cores promise 4023 GH/s. -/
def fallenShort : DeviceInfo :=
  { frequency := 500.0, coresPerChip := 894, chipCount := 9 }

/-- A clock so high that the product is almost `2 ^ 53`. -/
def reachedNext : DeviceInfo :=
  { frequency := 15436148562049.0, coresPerChip := 551, chipCount := 1 }

/-- A whole number of thousands is fallen short of, and the next one is reached. -/
theorem promises_are_missed :
    (number fallenShort.frequency = (500 : Nat) ∧ 500 * fallenShort.cores < 2 ^ 53 ∧
      fallenShort.nominalHashrate.toNat = 4022 ∧ 500 * fallenShort.cores / 1000 = 4023) ∧
    (number reachedNext.frequency = (15436148562049 : Nat) ∧
      15436148562049 * reachedNext.cores < 2 ^ 53 ∧
      reachedNext.nominalHashrate.toNat = 8505317857689 ∧
      15436148562049 * reachedNext.cores / 1000 = 8505317857688) := by
  refine ⟨⟨?_, by decide, by decide, by decide⟩, ?_, by decide, by decide, by decide⟩
  · rw [number_of_parts (m := 500 * 2 ^ 44) (e := -44) (by decide) (by decide) (by decide), dyadic]
    norm_num
  · rw [number_of_parts (m := 15436148562049 * 2 ^ 9) (e := -9) (by decide) (by decide) (by decide),
      dyadic]
    norm_num

end DeviceInfo
end MinerWatch
