import MinerWatch.Proofs.Series.Columns
import MinerWatch.Proofs.Series.Replay
/-!
What the report of a merge says, held against the samples.

A merge takes in the samples of the batch that are newer than everything before them and then drops
the old ones at the front, some of which may just have come in. The report counts: each sample of the
batch is either appended or rejected, and each one that the series has in between is either evicted
or still there (`report_accounts_for_every_sample`). The four columns lose as many places each as
bisection finds on the labels alone.
-/

namespace MinerWatch.Series

/-! ### What a trim counts -/

theorem size_trimBefore (s : Series) (cutoff : Millis) :
    (s.trimBefore cutoff).1.size + (s.trimBefore cutoff).2 = s.size :=
  Nat.add_sub_cancel' (List.dropWhile_suffix _).length_le

/-- What is counted is what was dropped from the front. -/
theorem evicted_eq_length (s : Series) (cutoff : Millis) :
    (s.trimBefore cutoff).2 = (s.samples.takeWhile (·.time < cutoff)).length := by
  have parts := s.size_trimBefore cutoff
  have halves := congrArg List.length
    (List.takeWhile_append_dropWhile (p := fun p : Sample => p.time < cutoff) (l := s.samples))
  have kept : (s.trimBefore cutoff).1.size = (s.samples.dropWhile (·.time < cutoff)).length := rfl
  rw [List.length_append] at halves
  unfold size at parts kept
  omega

/-- Of an ordered series as many samples are evicted as bisection finds labels before the cutoff. -/
theorem evicted_eq_bisect {s : Series} (h : Ordered s.samples) (cutoff : Millis) :
    (s.trimBefore cutoff).2 = Columns.bisect s.times cutoff 0 s.size := by
  have labels : (Columns.ofSamples s.samples).labels.length = s.size := List.length_map ..
  have found := Columns.bisect_ofSamples h cutoff
  rw [labels] at found
  exact (s.evicted_eq_length cutoff).trans found.symm

/-- Of an ordered series all samples older than the cutoff are evicted. -/
theorem evicted_eq_countP {s : Series} (h : Ordered s.samples) (cutoff : Millis) :
    (s.trimBefore cutoff).2 = s.samples.countP (·.time < cutoff) := by
  have kept : (s.trimBefore cutoff).1.size = s.samples.countP (cutoff ≤ ·.time) := by
    rw [size, samples_trimBefore h, List.countP_eq_length_filter]
  have all : s.size = s.samples.countP (·.time < cutoff) + s.samples.countP (cutoff ≤ ·.time) := by
    have counts := List.length_eq_countP_add_countP (fun p : Sample => p.time < cutoff) (l := s.samples)
    simpa [size] using counts
  have parts := s.size_trimBefore cutoff
  omega

/-! ### What a merge reports -/

/-- The samples of a series before it is trimmed: its own, and those of the batch that are newer than
everything before them. -/
def gathered (s : Series) (b : Batch) : List Sample :=
  s.samples ++ leaders s.samples b.samples

theorem samples_append_eq_gathered {s : Series} (h : Ordered s.samples) (b : Batch) :
    (s.append b.samples).1.samples = s.gathered b := by
  rw [samples_append, gathered, leaders_eq_newerThan (heads_newest h)]

theorem samples_absorb_eq_trimmed (s : Series) (w : Window) (b : Batch) (now : Millis) :
    (s.absorb w b now).1.samples =
      ((s.append b.samples).1.trimBefore (w.floor now)).1.samples := by
  simp only [absorb]
  split <;> rfl

/-- **The report of a merge accounts for every sample.** Each sample of the batch is appended or
rejected, and the appended ones are those newer than everything before them. Each sample gathered is
evicted or kept: evicted if it is older than the window, which bisection on the labels finds out for
all four columns at once. -/
theorem report_accounts_for_every_sample {s : Series} (ordered : Ordered s.samples) {b : Batch}
    (taken : b.mergeable = true) (w : Window) (now : Millis) :
    ∃ s' report, (s.merge w b now).value = (s', .ok report) ∧
      (leaders s.samples b.samples).Sublist b.samples ∧
      report.appended = (leaders s.samples b.samples).length ∧
      report.appended + report.rejected = b.size ∧
      report.evicted = (s.gathered b).countP (·.time < w.floor now) ∧
      s'.size + report.evicted = s.size + report.appended ∧
      s'.samples <:+ s.gathered b ∧
      (∀ p ∈ s'.samples, w.floor now ≤ p.time) ∧
      ((Columns.ofSamples s.samples).append b.samples).evict (w.floor now) =
        .ofSamples s'.samples ∧
      report.evicted = Columns.bisect ((s.gathered b).map (·.time)) (w.floor now) 0
        (s.gathered b).length ∧
      report.cursor = s'.cursor ∧ report.skipped = false := by
  obtain ⟨-, sound⟩ := Batch.mergeable_iff.mp taken
  have grown := samples_append_eq_gathered ordered b
  have inOrder := ordered_append ordered b.samples
  have kept := s.samples_absorb_eq_trimmed w b now
  have evicted : (s.absorb w b now).2.evicted =
      ((s.append b.samples).1.trimBefore (w.floor now)).2 := rfl
  have fresh := leaders_eq_newerThan (heads_newest ordered) b.samples
  have appended : (s.absorb w b now).2.appended = (leaders s.samples b.samples).length := by
    rw [fresh]
    rfl
  have length : (s.append b.samples).1.size = s.size + (s.absorb w b now).2.appended := by
    rw [size, grown, gathered, List.length_append, appended]
    rfl
  refine ⟨_, _, merge_of_mergeable s w now taken, ?_, appended, ?_, ?_, ?_, ?_, ?_, ?_, ?_, rfl, rfl⟩
  · rw [fresh]
    exact newerThan_sublist _ _
  · rw [Batch.size, ← Batch.length_samples sound]
    exact Nat.add_sub_cancel' (newerThan_sublist _ _).length_le
  · rw [evicted, evicted_eq_countP inOrder, grown]
  · rw [evicted, ← length, size, kept]
    exact size_trimBefore _ _
  · rw [kept, ← grown]
    exact List.dropWhile_suffix _
  · intro p hp
    rw [kept, samples_trimBefore inOrder] at hp
    simpa using (List.mem_filter.mp hp).2
  · rw [Columns.append_ofSamples, Columns.evict_ofSamples inOrder, kept]
  · rw [evicted, evicted_eq_bisect inOrder, times, size, grown]

/-- A series with a repeated label and a cursor far ahead, merged long after its samples and before
its cursor. -/
def lagging : Series :=
  ⟨[⟨4, 0.0, 0.0, 0.0⟩, ⟨4, 1.0, 0.0, 0.0⟩, ⟨9, 0.0, 0.0, 0.0⟩], some 50⟩

/-- Of a batch with stale, repeated and later instants two samples come in, and one of these is evicted
in the same merge. -/
theorem report_of_lagging :
    Ordered lagging.samples ∧ (Batch.idle 0 [9, 12, 11, 12, 30, 30, 20]).mergeable = true ∧
      ∃ s' report,
        (lagging.merge ⟨10⟩ (.idle 0 [9, 12, 11, 12, 30, 30, 20]) 25).value = (s', .ok report) ∧
        report.appended + report.rejected = 7 ∧ s'.size + report.evicted = 3 + report.appended ∧
        report = ⟨2, 5, 4, some 50, false⟩ ∧ s'.times = [30] ∧ s'.cursor = some 50 := by
  have ordered : Ordered lagging.samples := by
    rw [Ordered]
    decide
  have taken : (Batch.idle 0 [9, 12, 11, 12, 30, 30, 20]).mergeable = true := by decide
  obtain ⟨s', report, merged, -, -, offered, -, gathered, -⟩ :=
    report_accounts_for_every_sample ordered taken ⟨10⟩ 25
  refine ⟨ordered, taken, s', report, merged, offered, gathered, ?_⟩
  rw [merge_of_mergeable _ _ _ taken] at merged
  obtain ⟨rfl, rfl⟩ : _ = s' ∧ _ = report := by simpa using merged
  decide

end MinerWatch.Series
