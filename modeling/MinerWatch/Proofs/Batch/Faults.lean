import Mathlib.Order.Bounds.Defs
import MinerWatch.Proofs.Batch
/-!
Which batches are read exactly, and which fault is found in the others.

`Sound` says of the four sequences what reading them needs, and `Faulty` which of the faults of a batch
comes first. The checks decide just that, though each goes through the sequences in its own way: lengths
are compared, sums are checked offset by offset, and values are looked through row by row
(`first_fault_or_exact_samples`). Reading itself clamps sums and stops at the end of the shortest
sequence. In a sound batch it never comes to that (`Sound.exact`).
-/

namespace MinerWatch

/-- The first place of a list where something holds, and what stands there. -/
structure FirstAt {α : Type} (p : α → Prop) (xs : List α) (i : Nat) (x : α) : Prop where
  here : xs[i]? = some x
  holds : p x
  before : ∀ j < i, ∀ y, xs[j]? = some y → ¬ p y

theorem firstAt_cons {α : Type} {p : α → Prop} {x y : α} {xs : List α} {i : Nat} :
    FirstAt p (x :: xs) i y ↔
      (p x ∧ i = 0 ∧ y = x) ∨ (¬ p x ∧ ∃ j, i = j + 1 ∧ FirstAt p xs j y) := by
  constructor
  · rintro ⟨here, holds, before⟩
    cases i with
    | zero =>
        obtain rfl : x = y := Option.some.inj here
        exact .inl ⟨holds, rfl, rfl⟩
    | succ j =>
        exact .inr ⟨before 0 (Nat.succ_pos j) x rfl, j, rfl, here, holds, fun k lt z hz =>
          before (k + 1) (Nat.succ_lt_succ lt) z hz⟩
  · rintro (⟨holds, rfl, rfl⟩ | ⟨not, j, rfl, here, holds, before⟩)
    · exact ⟨rfl, holds, fun _ lt => absurd lt (Nat.not_lt_zero _)⟩
    · refine ⟨here, holds, fun k lt z hz => ?_⟩
      cases k with
      | zero => exact Option.some.inj hz ▸ not
      | succ k => exact before k (Nat.lt_of_succ_lt_succ lt) z hz

theorem find?_eq_some_iff_firstAt {α : Type} {p : α → Bool} {xs : List α} {x : α} :
    xs.find? p = some x ↔ ∃ i, FirstAt (p · = true) xs i x := by
  induction xs with
  | nil => exact ⟨fun h => absurd h (by simp), fun ⟨_, first⟩ => absurd first.here (by simp)⟩
  | cons y ys ih =>
      by_cases found : p y = true
      · rw [List.find?_cons_of_pos found]
        constructor
        · rintro ⟨rfl⟩
          exact ⟨0, firstAt_cons.mpr (.inl ⟨found, rfl, rfl⟩)⟩
        · rintro ⟨i, first⟩
          rcases firstAt_cons.mp first with ⟨-, -, rfl⟩ | ⟨not, -⟩
          · rfl
          · exact absurd found not
      · rw [List.find?_cons_of_neg found, ih]
        constructor
        · rintro ⟨i, first⟩
          exact ⟨i + 1, firstAt_cons.mpr (.inr ⟨found, i, rfl, first⟩)⟩
        · rintro ⟨i, first⟩
          rcases firstAt_cons.mp first with ⟨here, -⟩ | ⟨-, j, -, rest⟩
          · exact absurd here found
          · exact ⟨j, rest⟩

namespace Batch

/-! ### What is asked of a batch -/

/-- All four sequences have one length. -/
structure Aligned (b : Batch) : Prop where
  tenMin : b.tenMin.length = b.offsets.length
  hour : b.hour.length = b.offsets.length
  day : b.day.length = b.offsets.length

/-- The instant lies beyond the last one. -/
def Beyond (b : Batch) (offset : Millis) : Prop :=
  UInt64.size ≤ b.base.toNat + offset.toNat

/-- The raw value stands at a place of one of the three columns. -/
def RawAt (b : Batch) (i : Nat) (raw : Float) : Prop :=
  b.tenMin[i]? = some raw ∨ b.hour[i]? = some raw ∨ b.day[i]? = some raw

/-- What a batch needs so that it can be read without clamping or loss. -/
structure Sound (b : Batch) : Prop where
  aligned : b.Aligned
  inside : ∀ offset ∈ b.offsets, ¬ b.Beyond offset
  finite : ∀ i raw, b.RawAt i raw → (scaleRaw raw).isFinite = true

/-- The fault that comes first: lengths before instants, instants before values, and within these the
first place and its first value in the order of the columns. -/
inductive Faulty (b : Batch) : HistoryFault → Prop where
  | lengths (uneven : ¬ b.Aligned) :
      Faulty b (.lengths b.offsets.length b.tenMin.length b.hour.length b.day.length)
  | overflow {i : Nat} {offset : Millis} (aligned : b.Aligned)
      (first : FirstAt b.Beyond b.offsets i offset) : Faulty b (.overflow b.base offset)
  | notFinite {i k : Nat} {ten hour day raw : Float} (aligned : b.Aligned)
      (inside : ∀ offset ∈ b.offsets, ¬ b.Beyond offset)
      (before : ∀ j < i, ∀ raw, b.RawAt j raw → (scaleRaw raw).isFinite = true)
      (atTen : b.tenMin[i]? = some ten) (atHour : b.hour[i]? = some hour)
      (atDay : b.day[i]? = some day)
      (first : FirstAt (fun raw => (scaleRaw raw).isFinite = false) [ten, hour, day] k raw) :
      Faulty b (.notFinite i raw)

/-- The samples stand place by place for the offsets and values, each at the very sum. -/
structure Exact (b : Batch) : Prop where
  length : b.samples.length = b.offsets.length
  place : ∀ (i : Nat) (p : Sample), b.samples[i]? = some p →
    ∃ (offset : Millis) (ten hour day : Float), b.offsets[i]? = some offset ∧ b.tenMin[i]? = some ten ∧
      b.hour[i]? = some hour ∧ b.day[i]? = some day ∧
      p.time.toNat = b.base.toNat + offset.toNat ∧
      p.tenMin = scaleRaw ten ∧ p.hour = scaleRaw hour ∧ p.day = scaleRaw day
  finite : ∀ p ∈ b.samples, p.Finite
  newest : ∀ t, b.newest? = some t ↔ IsGreatest {u | u ∈ b.samples.map (·.time)} t
  nothing : b.newest? = none ↔ b.offsets = []

variable {b : Batch}

/-! ### The single checks -/

theorem aligned_iff : b.aligned = true ↔ b.Aligned := by
  have parts : b.aligned = true ↔ (b.tenMin.length = b.size ∧ b.hour.length = b.size) ∧
      b.day.length = b.size := by
    simp [aligned]
  rw [parts]
  constructor
  · rintro ⟨⟨ten, hour⟩, day⟩
    exact ⟨ten, hour, day⟩
  · rintro ⟨ten, hour, day⟩
    exact ⟨⟨ten, hour⟩, day⟩

theorem beyond_iff (offset : Millis) :
    (Millis.add? b.base offset).isNone = true ↔ b.Beyond offset := by
  rw [Option.isNone_iff_eq_none, Millis.add?_eq_none_iff, Beyond]

theorem overflow?_eq_some_iff {offset : Millis} :
    b.overflow? = some offset ↔ ∃ i, FirstAt b.Beyond b.offsets i offset := by
  simp only [overflow?, find?_eq_some_iff_firstAt, beyond_iff]

theorem overflow?_eq_none_iff :
    b.overflow? = none ↔ ∀ offset ∈ b.offsets, ¬ b.Beyond offset := by
  simp only [overflow?, List.find?_eq_none, beyond_iff]

theorem badValue?_eq_some_iff {ten hour day raw : Float} :
    badValue? (ten, hour, day) = some raw ↔
      ∃ k, FirstAt (fun raw => (scaleRaw raw).isFinite = false) [ten, hour, day] k raw := by
  simp only [badValue?, find?_eq_some_iff_firstAt, Bool.not_eq_true']

theorem badRow?_eq_some_iff {n i : Nat} {raw : Float} {rows : List (Float × Float × Float)} :
    badRow? n rows = some (i, raw) ↔
      ∃ k row, i = n + k ∧ FirstAt (badValue? · ≠ none) rows k row ∧ badValue? row = some raw := by
  induction rows generalizing n with
  | nil => exact ⟨fun h => absurd h (by simp [badRow?]), fun ⟨_, _, _, h, _⟩ => absurd h.here (by simp)⟩
  | cons row rows ih =>
      rw [badRow?]
      split
      · rename_i value bad
        have offends : badValue? row ≠ none := by simp [bad]
        constructor
        · rintro ⟨rfl, rfl⟩
          exact ⟨0, row, rfl, firstAt_cons.mpr (.inl ⟨offends, rfl, rfl⟩), bad⟩
        · rintro ⟨k, row', rfl, first, found⟩
          rcases firstAt_cons.mp first with ⟨-, rfl, rfl⟩ | ⟨good, -⟩
          · rw [bad] at found
            rw [Option.some.inj found, Nat.add_zero]
          · exact absurd offends good
      · rename_i good
        rw [ih]
        constructor
        · rintro ⟨k, row', rfl, first, found⟩
          exact ⟨k + 1, row', by omega, firstAt_cons.mpr (.inr ⟨by simp [good], k, rfl, first⟩), found⟩
        · rintro ⟨k, row', rfl, first, found⟩
          rcases firstAt_cons.mp first with ⟨offends, -⟩ | ⟨-, j, rfl, rest⟩
          · exact absurd good offends
          · exact ⟨j, row', by omega, rest, found⟩

theorem badRow?_eq_none {n : Nat} {rows : List (Float × Float × Float)}
    (good : ∀ row ∈ rows, badValue? row = none) : badRow? n rows = none := by
  induction rows generalizing n with
  | nil => rfl
  | cons row rows ih =>
      obtain ⟨first, rest⟩ := List.forall_mem_cons.mp good
      rw [badRow?, first]
      exact ih rest

/-! ### Places -/

theorem getElem?_rows {i : Nat} {ten hour day : Float} :
    b.rows[i]? = some (ten, hour, day) ↔
      b.tenMin[i]? = some ten ∧ b.hour[i]? = some hour ∧ b.day[i]? = some day := by
  simp only [rows, List.getElem?_zip_eq_some]

theorem getElem?_samples {i : Nat} {p : Sample} :
    b.samples[i]? = some p ↔
      ∃ offset ten hour day, b.offsets[i]? = some offset ∧ b.rows[i]? = some (ten, hour, day) ∧
        p = ⟨Millis.addClamped b.base offset, scaleRaw ten, scaleRaw hour, scaleRaw day⟩ := by
  rw [samples, List.getElem?_map, Option.map_eq_some_iff]
  constructor
  · rintro ⟨⟨offset, ten, hour, day⟩, here, rfl⟩
    obtain ⟨atOffset, atRow⟩ := List.getElem?_zip_eq_some.mp here
    exact ⟨offset, ten, hour, day, atOffset, atRow, rfl⟩
  · rintro ⟨offset, ten, hour, day, atOffset, atRow, rfl⟩
    exact ⟨(offset, ten, hour, day), List.getElem?_zip_eq_some.mpr ⟨atOffset, atRow⟩, rfl⟩

/-! ### All checks together -/

theorem badValue?_eq_none_iff {ten hour day : Float} :
    badValue? (ten, hour, day) = none ↔
      (scaleRaw ten).isFinite = true ∧ (scaleRaw hour).isFinite = true ∧
        (scaleRaw day).isFinite = true := by
  simp [badValue?]

/-- In an aligned batch the rows reach every value. -/
theorem Aligned.rawAt (aligned : b.Aligned) {i : Nat} {raw : Float} (h : b.RawAt i raw) :
    ∃ ten hour day, b.rows[i]? = some (ten, hour, day) ∧ (raw = ten ∨ raw = hour ∨ raw = day) := by
  obtain ⟨tens, hours, days⟩ := aligned
  have inside : i < b.offsets.length := by
    rcases h with h | h | h
    · exact tens ▸ (List.getElem?_eq_some_iff.mp h).1
    · exact hours ▸ (List.getElem?_eq_some_iff.mp h).1
    · exact days ▸ (List.getElem?_eq_some_iff.mp h).1
  have ten := List.getElem?_eq_getElem (tens ▸ inside)
  have hour := List.getElem?_eq_getElem (hours ▸ inside)
  have day := List.getElem?_eq_getElem (days ▸ inside)
  refine ⟨_, _, _, getElem?_rows.mpr ⟨ten, hour, day⟩, ?_⟩
  rcases h with h | h | h
  · exact .inl (Option.some.inj (h.symm.trans ten))
  · exact .inr (.inl (Option.some.inj (h.symm.trans hour)))
  · exact .inr (.inr (Option.some.inj (h.symm.trans day)))

/-- Row by row or column by column, the values of a place are finite or not. -/
theorem Aligned.finiteAt_iff (aligned : b.Aligned) (i : Nat) :
    (∀ raw, b.RawAt i raw → (scaleRaw raw).isFinite = true) ↔
      ∀ row, b.rows[i]? = some row → badValue? row = none := by
  constructor
  · rintro finite ⟨ten, hour, day⟩ here
    obtain ⟨atTen, atHour, atDay⟩ := getElem?_rows.mp here
    exact badValue?_eq_none_iff.mpr
      ⟨finite ten (.inl atTen), finite hour (.inr (.inl atHour)), finite day (.inr (.inr atDay))⟩
  · intro good raw h
    obtain ⟨ten, hour, day, here, value⟩ := aligned.rawAt h
    obtain ⟨tens, hours, days⟩ := badValue?_eq_none_iff.mp (good _ here)
    rcases value with rfl | rfl | rfl <;> assumption

theorem fault?_eq_none_iff : b.fault? = none ↔ b.Sound := by
  constructor
  · intro h
    obtain ⟨even, fits, good⟩ := checks_of_sound h
    have aligned := aligned_iff.mp even
    refine ⟨aligned, overflow?_eq_none_iff.mp fits, fun i => (aligned.finiteAt_iff i).mpr ?_⟩
    intro row here
    exact badValue?_of_badRow? good row (List.mem_of_getElem? here)
  · rintro ⟨aligned, inside, finite⟩
    have good : ∀ row ∈ b.rows, badValue? row = none := by
      intro row mem
      obtain ⟨i, here⟩ := List.getElem?_of_mem mem
      exact (aligned.finiteAt_iff i).mp (finite i) row here
    simp [fault?, aligned_iff.mpr aligned, overflow?_eq_none_iff.mpr inside, badRow?_eq_none good]

theorem fault?_eq_some_iff {f : HistoryFault} : b.fault? = some f ↔ b.Faulty f := by
  constructor
  · intro h
    unfold fault? at h
    cases even : b.aligned with
    | false =>
        obtain rfl : HistoryFault.lengths _ _ _ _ = f := by simpa [even] using h
        exact .lengths fun aligned => by simp [aligned_iff.mpr aligned] at even
    | true =>
        have aligned := aligned_iff.mp even
        cases fits : b.overflow? with
        | some offset =>
            obtain rfl : HistoryFault.overflow _ _ = f := by simpa [even, fits] using h
            obtain ⟨i, first⟩ := overflow?_eq_some_iff.mp fits
            exact .overflow aligned first
        | none =>
            obtain ⟨i, raw, bad, rfl⟩ :
                ∃ i raw, badRow? 0 b.rows = some (i, raw) ∧ HistoryFault.notFinite i raw = f := by
              simpa [even, fits] using h
            obtain ⟨k, ⟨ten, hour, day⟩, eq, first, value⟩ := badRow?_eq_some_iff.mp bad
            obtain rfl : i = k := by omega
            obtain ⟨atTen, atHour, atDay⟩ := getElem?_rows.mp first.here
            obtain ⟨_, least⟩ := badValue?_eq_some_iff.mp value
            refine .notFinite aligned (overflow?_eq_none_iff.mp fits) (fun j lt => ?_) atTen atHour atDay
              least
            exact (aligned.finiteAt_iff j).mpr fun row here => by
              simpa using first.before j lt row here
  · intro h
    cases h with
    | lengths uneven =>
        have even : b.aligned = false := Bool.eq_false_iff.mpr (mt aligned_iff.mp uneven)
        simp [fault?, even, size]
    | overflow aligned first =>
        simp [fault?, aligned_iff.mpr aligned, overflow?_eq_some_iff.mpr ⟨_, first⟩]
    | notFinite aligned inside before atTen atHour atDay first =>
        have value := badValue?_eq_some_iff.mpr ⟨_, first⟩
        have row : FirstAt (badValue? · ≠ none) b.rows _ (_, _, _) :=
          ⟨getElem?_rows.mpr ⟨atTen, atHour, atDay⟩, by simp [value], fun j lt row here =>
            fun offends => offends ((aligned.finiteAt_iff j).mp (before j lt) row here)⟩
        have bad := badRow?_eq_some_iff.mpr ⟨_, _, (Nat.zero_add _).symm, row, value⟩
        simp [fault?, aligned_iff.mpr aligned, overflow?_eq_none_iff.mpr inside, bad]

/-! ### Reading -/

/-- The newest instant of a sound batch is the greatest of all its instants. -/
theorem newest?_eq_some_iff (sound : b.fault? = none) {t : Millis} :
    b.newest? = some t ↔ IsGreatest {u | u ∈ b.samples.map (·.time)} t := by
  cases empty : b.isEmpty with
  | true =>
      have none : b.offsets = [] := List.isEmpty_iff.mp empty
      simp only [newest?, samples, none, List.max?_nil, Option.bind_none, reduceCtorEq, false_iff]
      exact fun greatest => List.not_mem_nil (show t ∈ [] from greatest.1)
  | false =>
      obtain ⟨newest, eq, mem, le⟩ := exists_newest? sound empty
      rw [eq]
      constructor
      · rintro ⟨rfl⟩
        exact ⟨mem, le⟩
      · rintro ⟨mem', le'⟩
        exact congrArg some (UInt64.le_antisymm (le' mem) (le t mem'))

theorem newest?_eq_none_iff (sound : b.fault? = none) : b.newest? = none ↔ b.offsets = [] := by
  constructor
  · intro nothing
    cases empty : b.isEmpty with
    | true => exact List.isEmpty_iff.mp empty
    | false =>
        obtain ⟨newest, eq, -⟩ := exists_newest? sound empty
        exact absurd (eq.symm.trans nothing) (by simp)
  · intro none
    simp [newest?, none]

/-- Nothing is clamped or left out in reading a sound batch. -/
theorem Sound.exact (sound : b.Sound) : b.Exact := by
  have faultless := fault?_eq_none_iff.mpr sound
  refine ⟨length_samples faultless, fun i p here => ?_, finite_samples faultless,
    fun t => newest?_eq_some_iff faultless, newest?_eq_none_iff faultless⟩
  obtain ⟨offset, ten, hour, day, atOffset, atRow, rfl⟩ := getElem?_samples.mp here
  obtain ⟨atTen, atHour, atDay⟩ := getElem?_rows.mp atRow
  have fits := Nat.not_le.mp (sound.inside offset (List.mem_of_getElem? atOffset))
  refine ⟨offset, ten, hour, day, atOffset, atTen, atHour, atDay, ?_, rfl, rfl, rfl⟩
  rw [Millis.toNat_addClamped]
  omega

/-- **A batch has a first fault or is read exactly.** The checks find no fault just in a sound batch,
whose samples then are its offsets and values place by place; and a fault that they find is the first
one in the order of the checks. -/
theorem first_fault_or_exact_samples (b : Batch) :
    (b.fault? = none ↔ b.Sound) ∧ (b.fault? = none → b.Exact) ∧
      ∀ f, b.fault? = some f ↔ b.Faulty f :=
  ⟨fault?_eq_none_iff, fun faultless => (fault?_eq_none_iff.mp faultless).exact,
    fun _ => fault?_eq_some_iff⟩

/-- A batch whose newest instant is the very last one, out of order. -/
def lastInstants : Batch := .idle 18446744073709551610 [5, 0, 3]

/-- A batch with one offset too many for its base, and with values that are too large. -/
def overfull : Batch :=
  ⟨18446744073709551610, [5, 6, 7], [0.0, 0.0, 1e308], [0.0, 1e300, 0.0], [0.0, 1e308, 1e308]⟩

/-- At the end of time a batch is read to the last instant and not beyond; of many faults the first
instant that overflows is told, and with a base that fits the first value of the first bad row. -/
theorem exact_at_the_end_of_time :
    lastInstants.fault? = none ∧ lastInstants.Exact ∧
      lastInstants.newest? = some Millis.last ∧
      overfull.Faulty (.overflow 18446744073709551610 6) ∧
      ({ overfull with base := 0 } : Batch).Faulty (.notFinite 1 1e300) := by
  have faultless : lastInstants.fault? = none := by decide
  have first := (first_fault_or_exact_samples overfull).2.2 (.overflow 18446744073709551610 6)
  have second := (first_fault_or_exact_samples { overfull with base := 0 }).2.2 (.notFinite 1 1e300)
  exact ⟨faultless, (first_fault_or_exact_samples lastInstants).2.1 faultless, by decide,
    first.mp (by decide), second.mp (by decide +kernel)⟩

end Batch
end MinerWatch
