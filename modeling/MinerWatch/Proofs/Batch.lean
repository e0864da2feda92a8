import MinerWatch.Batch
/-!
What a batch without faults carries.

One sample for each offset, with finite averages; and if it carries anything, a newest instant
that is one of them.
-/

namespace MinerWatch

/-- The larger of two words is one of them, and no smaller than either. -/
instance lawfulOrderMaxWord : Std.LawfulOrderMax UInt64 where
  max_eq_or a b := by
    show (if a ≤ b then b else a) = a ∨ (if a ≤ b then b else a) = b
    split
    · exact .inr rfl
    · exact .inl rfl
  max_le_iff a b c := by
    show (if a ≤ b then b else a) ≤ c ↔ a ≤ c ∧ b ≤ c
    split
    · rename_i le
      exact ⟨fun h => ⟨UInt64.le_trans le h, h⟩, And.right⟩
    · rename_i gt
      have le := UInt64.le_of_lt (UInt64.not_le.mp gt)
      exact ⟨fun h => ⟨h, UInt64.le_trans le h⟩, And.left⟩

theorem Millis.addClamped_mono (base : Millis) {a b : Millis} (h : a ≤ b) :
    addClamped base a ≤ addClamped base b := by
  rw [UInt64.le_iff_toNat_le] at h ⊢
  rw [toNat_addClamped, toNat_addClamped]
  omega

/-- All three averages are finite. -/
def Sample.Finite (p : Sample) : Prop :=
  p.tenMin.isFinite = true ∧ p.hour.isFinite = true ∧ p.day.isFinite = true

/-- The batch carries samples and has no fault, so that a merge takes it. -/
def Batch.mergeable (b : Batch) : Bool :=
  !b.isEmpty && b.fault?.isNone

/-- A batch of idle samples: all its averages are zero. -/
def Batch.idle (base : Millis) (offsets : List Millis) : Batch :=
  let zeros := offsets.map fun _ => 0.0
  ⟨base, offsets, zeros, zeros, zeros⟩

namespace Batch

variable {b : Batch}

theorem mergeable_iff : b.mergeable = true ↔ b.isEmpty = false ∧ b.fault? = none := by
  simp [mergeable]

theorem checks_of_sound (h : b.fault? = none) :
    b.aligned = true ∧ b.overflow? = none ∧ badRow? 0 b.rows = none := by
  unfold fault? at h
  cases aligned : b.aligned with
  | false => simp [aligned] at h
  | true =>
      cases overflow : b.overflow? with
      | some offset => simp [aligned, overflow] at h
      | none => exact ⟨rfl, rfl, by simpa [aligned, overflow] using h⟩

theorem length_rows (h : b.fault? = none) : b.rows.length = b.offsets.length := by
  obtain ⟨⟨ten, hour⟩, day⟩ : (b.tenMin.length = b.size ∧ b.hour.length = b.size) ∧
      b.day.length = b.size := by
    simpa [aligned] using (checks_of_sound h).1
  simp [rows, ten, hour, day, size]

theorem times_samples (h : b.fault? = none) :
    b.samples.map (·.time) = b.offsets.map (Millis.addClamped b.base) := by
  have lengths : b.offsets.length ≤ b.rows.length := Nat.le_of_eq (length_rows h).symm
  have offsets := congrArg (List.map (Millis.addClamped b.base)) (List.map_fst_zip lengths)
  rw [← offsets, List.map_map, samples, List.map_map]
  rfl

theorem length_samples (h : b.fault? = none) : b.samples.length = b.offsets.length := by
  have times := congrArg List.length (times_samples h)
  rwa [List.length_map, List.length_map] at times

theorem badValue?_of_badRow? {index : Nat} {rows : List (Float × Float × Float)}
    (h : badRow? index rows = none) : ∀ row ∈ rows, badValue? row = none := by
  induction rows generalizing index with
  | nil => exact fun row hrow => absurd hrow (by simp)
  | cons first rest ih =>
      rw [badRow?] at h
      split at h
      · exact absurd h (by simp)
      · rename_i good
        exact List.forall_mem_cons.mpr ⟨good, ih h⟩

theorem finite_samples (h : b.fault? = none) : ∀ p ∈ b.samples, p.Finite := by
  intro p hp
  obtain ⟨⟨offset, row⟩, pair, rfl⟩ := List.mem_map.mp hp
  have good := badValue?_of_badRow? (checks_of_sound h).2.2 row (List.of_mem_zip pair).2
  simpa [badValue?, Sample.Finite] using good

theorem exists_newest? (h : b.fault? = none) (filled : b.isEmpty = false) :
    ∃ newest, b.newest? = some newest ∧ newest ∈ b.samples.map (·.time) ∧
      ∀ t ∈ b.samples.map (·.time), t ≤ newest := by
  have some : b.offsets.max?.isSome = true := by simpa [isEmpty] using filled
  obtain ⟨most, eq⟩ := Option.isSome_iff_exists.mp some
  obtain ⟨mem, le⟩ := List.max?_eq_some_iff.mp eq
  have inside : Millis.add? b.base most = .some (Millis.addClamped b.base most) := by
    have fits := List.find?_eq_none.mp (checks_of_sound h).2.1 most mem
    cases sum : Millis.add? b.base most with
    | none => simp [sum] at fits
    | some t => simp [Millis.addClamped, sum]
  refine ⟨Millis.addClamped b.base most, by simp [newest?, eq, inside], ?_, ?_⟩
  · rw [times_samples h]
    exact List.mem_map_of_mem mem
  · intro t ht
    rw [times_samples h] at ht
    obtain ⟨offset, hoffset, rfl⟩ := List.mem_map.mp ht
    exact Millis.addClamped_mono b.base (le offset hoffset)

end Batch
end MinerWatch
