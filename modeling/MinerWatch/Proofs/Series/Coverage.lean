import Mathlib.Data.List.Sort
import MinerWatch.Proofs.Series.Merge
/-!
A series without gaps.

The device has recorded certain instants, and a series covers them from a floor on if it
shows each one up to its cursor. The samples behind the cursor were trimmed by floors that
only rise; the ones beyond it are still to be fetched. An answer keeps the series covering
when its request started late in neither respect (`Reaches`): no later than the floor, or no later
than right after the cursor. `Covers.absorb` is the step, and needs nothing of the order in
which answers come in.
-/

namespace MinerWatch

/-- What an honest device answers to a request: a batch without faults that holds, of all that was
recorded up to some moment, the instants from the start of the request on. -/
structure Batch.Answers (b : Batch) (recorded : List Millis) (start : Millis) : Prop where
  sound : b.fault? = none
  times : ∃ k, b.samples.map (·.time) = (recorded.take k).filter (start ≤ ·)

/-- A request from `start` misses nothing between what is shown and what is new. -/
def Reaches (start floor : Millis) (cursor : Option Millis) : Prop :=
  start ≤ floor ∨ ∃ c, cursor = some c ∧ start ≤ Millis.next c

theorem Millis.next_mono {a b : Millis} (h : a ≤ b) : next a ≤ next b := by
  rw [UInt64.le_iff_toNat_le] at h ⊢
  rw [toNat_next, toNat_next]
  omega

theorem Millis.next_le {a b : Millis} (h : a < b) : next a ≤ b := by
  rw [UInt64.lt_iff_toNat_lt] at h
  rw [UInt64.le_iff_toNat_le, toNat_next]
  omega

/-- A request that starts where it should misses nothing. -/
theorem Window.reaches_fetchStart (w : Window) (cursor : Option Millis) (now : Millis) :
    Reaches (w.fetchStart cursor now) (w.floor now) cursor := by
  cases cursor with
  | none => exact .inl (UInt64.le_refl _)
  | some c =>
      rcases Std.MaxEqOr.max_eq_or (Millis.next c) (w.floor now) with eq | eq
      · exact .inr ⟨c, rfl, UInt64.le_of_eq eq⟩
      · exact .inl (UInt64.le_of_eq eq)

/-- A request that misses nothing misses nothing later on. -/
theorem Reaches.later {start floor floor' : Millis} {cursor cursor' : Option Millis}
    (h : Reaches start floor cursor) (floors : floor ≤ floor')
    (cursors : ∀ c, cursor = some c → ∃ c', cursor' = some c' ∧ c ≤ c') :
    Reaches start floor' cursor' := by
  rcases h with le | ⟨c, hc, le⟩
  · exact .inl (UInt64.le_trans le floors)
  · obtain ⟨c', hc', further⟩ := cursors c hc
    exact .inr ⟨c', hc', UInt64.le_trans le (Millis.next_mono further)⟩

theorem Reaches.le {start floor t : Millis} {cursor : Option Millis} (h : Reaches start floor cursor)
    (inside : floor ≤ t) (beyond : ∀ c, cursor = some c → c < t) : start ≤ t := by
  rcases h with le | ⟨c, hc, le⟩
  · exact UInt64.le_trans le inside
  · exact UInt64.le_trans le (Millis.next_le (beyond c hc))

namespace Batch.Answers

variable {b : Batch} {recorded : List Millis} {start : Millis}

theorem mem_recorded (h : b.Answers recorded start) {t : Millis} (ht : t ∈ b.samples.map (·.time)) :
    t ∈ recorded := by
  obtain ⟨k, eq⟩ := h.times
  rw [eq] at ht
  exact List.mem_of_mem_take (List.mem_filter.mp ht).1

theorem ascending (h : b.Answers recorded start) (forward : recorded.Pairwise (· < ·)) :
    Series.Ascending b.samples := by
  obtain ⟨k, eq⟩ := h.times
  have times : (b.samples.map (·.time)).Pairwise (· < ·) :=
    eq ▸ (forward.sublist (List.take_sublist k recorded)).filter _
  exact List.pairwise_map.mp times

/-- An answer leaves out nothing between the start of its request and its newest instant. -/
theorem mem_of_le (h : b.Answers recorded start) (forward : recorded.Pairwise (· < ·))
    {t newest : Millis} (ht : t ∈ recorded) (from_ : start ≤ t)
    (carried : newest ∈ b.samples.map (·.time)) (le : t ≤ newest) :
    t ∈ b.samples.map (·.time) := by
  obtain ⟨k, eq⟩ := h.times
  rw [eq] at carried ⊢
  refine List.mem_filter.mpr ⟨?_, decide_eq_true from_⟩
  have parts := List.take_append_drop k recorded
  rw [← parts] at ht forward
  rcases List.mem_append.mp ht with early | late
  · exact early
  · have := (List.pairwise_append.mp forward).2.2 newest (List.mem_filter.mp carried).1 t late
    exact absurd le (UInt64.not_le.mpr this)

end Batch.Answers

namespace Series

/-- The series shows everything that was recorded from the floor up to its cursor, and the cursor
is itself an instant that was recorded. -/
structure Covers (s : Series) (recorded : List Millis) (floor : Millis) : Prop where
  times : s.times = recorded.filter fun t => floor ≤ t ∧ s.cursor.any (t ≤ ·)
  cursor : ∀ c, s.cursor = some c → c ∈ recorded

variable {s : Series} {recorded : List Millis} {floor start : Millis}

theorem covers_empty (recorded : List Millis) (floor : Millis) : empty.Covers recorded floor :=
  ⟨by simp [times, empty], fun c hc => absurd hc (by simp [empty])⟩

theorem Covers.mem_times (h : s.Covers recorded floor) {t : Millis} :
    t ∈ s.times ↔ t ∈ recorded ∧ floor ≤ t ∧ ∃ c, s.cursor = some c ∧ t ≤ c := by
  rw [h.times, List.mem_filter]
  simp [Option.any_eq_true]

theorem Covers.ascending (h : s.Covers recorded floor) (forward : recorded.Pairwise (· < ·)) :
    s.times.Pairwise (· < ·) :=
  h.times ▸ forward.filter _

theorem Covers.ordered (h : s.Covers recorded floor) (forward : recorded.Pairwise (· < ·)) :
    Ordered s.samples :=
  (List.pairwise_map.mp (h.ascending forward)).imp UInt64.le_of_lt

/-- What is recorded later lies beyond the cursor. -/
theorem Covers.record (h : s.Covers recorded floor) {t : Millis} (newer : ∀ u ∈ recorded, u < t) :
    s.Covers (recorded ++ [t]) floor := by
  refine ⟨?_, fun c hc => List.mem_append_left _ (h.cursor c hc)⟩
  have beyond : s.cursor.any (t ≤ ·) = false := by
    cases cursor : s.cursor with
    | none => rfl
    | some c => simpa using newer c (h.cursor c cursor)
  rw [List.filter_append, ← h.times]
  simp [beyond]

/-! ### Taking in an answer -/

variable {w : Window} {b : Batch} {now : Millis}

/-- The cursor after an answer was recorded, and nothing shown before or carried by the batch is
later than it. -/
theorem Covers.exists_resume (h : s.Covers recorded floor) (answers : b.Answers recorded start)
    (filled : b.isEmpty = false) :
    ∃ resume ∈ recorded, laterOf s.cursor b.newest? = some resume ∧
      (∀ t ∈ s.times, t ≤ resume) ∧ (∀ t ∈ b.samples.map (·.time), t ≤ resume) ∧
      (s.cursor = some resume ∨ resume ∈ b.samples.map (·.time)) := by
  obtain ⟨newest, eq, carried, le⟩ := Batch.exists_newest? answers.sound filled
  obtain ⟨resume, later, source⟩ := exists_laterOf s.cursor eq
  refine ⟨resume, ?_, later, fun t ht => ?_, fun t ht => ?_, ?_⟩
  · rcases source with cursor | newest'
    · exact h.cursor resume cursor
    · obtain rfl := Option.some.inj (eq.symm.trans newest')
      exact answers.mem_recorded carried
  · obtain ⟨-, -, c, cursor, before⟩ := h.mem_times.mp ht
    exact UInt64.le_trans before (le_of_laterOf later (.inl cursor))
  · exact UInt64.le_trans (le t ht) (le_of_laterOf later (.inr eq))
  · rcases source with cursor | newest'
    · exact .inl cursor
    · obtain rfl := Option.some.inj (eq.symm.trans newest')
      exact .inr carried

/-- **An answer leaves no gap.** The series covers everything from the new floor on, up to a cursor
that is no earlier than it was and than anything that came in. -/
theorem Covers.absorb (h : s.Covers recorded floor) (forward : recorded.Pairwise (· < ·))
    (floors : floor ≤ w.floor now) (reaches : Reaches start (w.floor now) s.cursor)
    (answers : b.Answers recorded start) (filled : b.isEmpty = false) :
    (s.absorb w b now).1.Covers recorded (w.floor now) ∧
      ∃ resume, (s.absorb w b now).1.cursor = some resume ∧
        ∀ t, s.cursor = some t ∨ t ∈ b.samples.map (·.time) → t ≤ resume := by
  obtain ⟨resume, known, later, old, new, source⟩ := h.exists_resume answers filled
  have cursor := cursor_absorb later (List.forall_mem_map.mp old) (List.forall_mem_map.mp new) w now
  have ascending : Ascending s.samples := List.pairwise_map.mp (h.ascending forward)
  refine ⟨⟨?_, ?_⟩, resume, cursor, fun t ht => ?_⟩
  · -- Both sides go forward in time, so it is enough that they have the same members.
    have after : (s.absorb w b now).1.times.Pairwise (· < ·) :=
      List.pairwise_map.mpr (ascending_absorb ascending w b now)
    refine after.eq_of_mem_iff (forward.filter _) fun t => ?_
    rw [mem_times_absorb ascending.ordered (answers.ascending forward), cursor, List.mem_filter]
    simp only [Option.any_some, decide_eq_true_eq]
    constructor
    · rintro ⟨inside, shown | ⟨carried, -⟩⟩
      · exact ⟨(h.mem_times.mp shown).1, inside, old t shown⟩
      · exact ⟨answers.mem_recorded carried, inside, new t carried⟩
    · rintro ⟨ht, inside, le⟩
      by_cases shown : ∃ c, s.cursor = some c ∧ t ≤ c
      · exact ⟨inside, .inl (h.mem_times.mpr ⟨ht, UInt64.le_trans floors inside, shown⟩)⟩
      · -- Beyond the old cursor everything must come from the batch.
        have beyond : ∀ c, s.cursor = some c → c < t := fun c hc =>
          UInt64.not_le.mp fun le => shown ⟨c, hc, le⟩
        have carried : resume ∈ b.samples.map (·.time) :=
          source.resolve_left fun hc => shown ⟨resume, hc, le⟩
        refine ⟨inside, .inr ⟨?_, fun u hu => ?_⟩⟩
        · exact answers.mem_of_le forward ht (reaches.le inside beyond) carried le
        · obtain ⟨-, -, c, hc, before⟩ := h.mem_times.mp hu
          exact UInt64.lt_of_le_of_lt before (beyond c hc)
  · intro c hc
    obtain rfl := Option.some.inj (cursor.symm.trans hc)
    exact known
  · rcases ht with ht | ht
    · exact le_of_laterOf later (.inl ht)
    · exact new t ht

end Series
end MinerWatch
