import MinerWatch.Proofs.Series.Merge
/-!
A history replayed batch by batch, against the same history seen at once.

A series that takes in one batch after another forgets: what falls out of the window
is gone, and the next batch is only compared with what is left. The reference
forgets nothing. It lines up the samples at the start and those of every batch, keeps
each one that is newer than everything before it (`leaders`), and applies the window
once, at the end. `samples_replay` says that both keep the same samples.
-/

namespace MinerWatch

namespace Series

/-- The series after merging batches, each at its instant. -/
def replay (s : Series) (w : Window) (imports : List (Batch × Millis)) : Series :=
  imports.foldl (fun s i => (s.merge w i.1 i.2).value.1) s

/-- The samples of the batches that a replay takes, in order. -/
def offered (imports : List (Batch × Millis)) : List Sample :=
  (imports.filter (·.1.mergeable)).flatMap (·.1.samples)

/-- The oldest instant in the window at the last batch that a replay takes. -/
def lastFloor (w : Window) (start : Millis) (imports : List (Batch × Millis)) : Millis :=
  ((imports.filter (·.1.mergeable)).getLast?.map (fun i => w.floor i.2)).getD start

/-- A series shows another one from a cutoff on. -/
def ShowsFrom (cutoff : Millis) (s full : Series) : Prop :=
  s.samples = full.samples.filter (fun p => cutoff ≤ p.time)

/-- A part that is cut off is too old to matter at any later cutoff. -/
theorem ShowsFrom.agree {cutoff later : Millis} {s full : Series} (h : ShowsFrom cutoff s full)
    (ordered : Ordered full.samples) (le : cutoff ≤ later) :
    AgreeFrom later s.newest? full.newest? := by
  cases last : full.samples.getLast? with
  | none =>
      have nothing := List.getLast?_eq_none_iff.mp last
      left
      simp [newest?, latest?, ShowsFrom, nothing] at h ⊢
      simp [h]
  | some r =>
      obtain ⟨init, eq⟩ := List.getLast?_eq_some_iff.mp last
      by_cases kept : cutoff ≤ r.time
      · left
        rw [newest?, newest?, latest?, latest?, last, h, eq]
        simp [List.filter_append, kept]
      · -- The newest sample of all is cut off, and with it everything.
        have old := UInt64.not_le.mp kept
        have empty : s.samples = [] := by
          rw [h, List.filter_eq_nil_iff]
          intro q hq
          have := ordered.le_getLast last hq
          simpa using UInt64.lt_of_le_of_lt this old
        right
        simp only [newest?, latest?, empty, last]
        exact ⟨rfl, by simpa using UInt64.lt_of_lt_of_le old le⟩

/-- One batch keeps the series a view of the one that forgets nothing. -/
theorem ShowsFrom.absorb {cutoff : Millis} {s full : Series} (h : ShowsFrom cutoff s full)
    (ordered : Ordered full.samples) {w : Window} {now : Millis} (le : cutoff ≤ w.floor now)
    (b : Batch) : ShowsFrom (w.floor now) (s.absorb w b now).1 (full.append b.samples).1 := by
  have sOrdered : Ordered s.samples := by rw [h]; exact ordered.filter _
  have old : s.samples.filter (fun p => w.floor now ≤ p.time) =
      full.samples.filter (fun p => w.floor now ≤ p.time) := by
    rw [h, List.filter_filter]
    refine List.filter_congr fun q _ => ?_
    by_cases kept : w.floor now ≤ q.time
    · simp [kept, UInt64.le_trans le kept]
    · simp [kept]
  have new := newerThan_congr_from (h.agree ordered le) b.samples
  rw [ShowsFrom, samples_absorb sOrdered, samples_append, List.filter_append, List.filter_append,
    old, new]

/-- Along a replay the series stays a view of the one that forgets nothing. -/
theorem ShowsFrom.replay {cutoff : Millis} {s full : Series} {w : Window}
    {imports : List (Batch × Millis)} (h : ShowsFrom cutoff s full)
    (ordered : Ordered full.samples) (le : ∀ i ∈ imports, cutoff ≤ w.floor i.2)
    (clock : imports.Pairwise (fun i j => i.2 ≤ j.2)) :
    ShowsFrom (lastFloor w cutoff imports) (s.replay w imports)
      (full.append (offered imports)).1 := by
  induction imports generalizing cutoff s full with
  | nil =>
      show s.samples = (full.samples ++ []).filter _
      rw [List.append_nil]
      exact h
  | cons i rest ih =>
      obtain ⟨first, clock⟩ := List.pairwise_cons.mp clock
      by_cases taken : i.1.mergeable = true
      · have step := h.absorb ordered (le i (by simp)) i.1
        have run := ih step (ordered_append ordered _) (fun j hj => w.floor_mono (first j hj)) clock
        have floors : lastFloor w cutoff (i :: rest) = lastFloor w (w.floor i.2) rest := by
          simp only [lastFloor, List.filter_cons, taken, if_true]
          cases rest.filter (·.1.mergeable) with
          | nil => rfl
          | cons j js => simp [List.getLast?_cons]
        have samples : offered (i :: rest) = i.1.samples ++ offered rest := by
          simp [offered, taken]
        rw [floors, samples, ShowsFrom, ← samples_append_append, Series.replay, List.foldl_cons,
          merge_of_mergeable s w i.2 taken]
        exact run
      · have skipped := merge_of_not_mergeable s w i.2 (Bool.eq_false_iff.mpr taken)
        have run := ih h ordered (fun j hj => le j (by simp [hj])) clock
        simpa [Series.replay, lastFloor, offered, List.filter_cons, taken, skipped] using run

/-- **A replay is the one-shot reference.** The samples left are those at the start and the leaders
of all batches taken, as far as they are inside the window at the last of these batches. -/
theorem samples_replay {s : Series} {w : Window} {imports : List (Batch × Millis)}
    {last : Batch × Millis} (ordered : Ordered s.samples)
    (clock : imports.Pairwise (fun i j => i.2 ≤ j.2))
    (taken : (imports.filter (·.1.mergeable)).getLast? = some last) :
    (s.replay w imports).samples =
      (s.samples ++ leaders s.samples (offered imports)).filter
        (fun p => w.floor last.2 ≤ p.time) := by
  have start : ShowsFrom 0 s s := by
    refine (List.filter_eq_self.mpr fun p _ => ?_).symm
    exact decide_eq_true UInt64.zero_le
  have run := start.replay (w := w) ordered (fun _ _ => UInt64.zero_le) clock
  rw [ShowsFrom, samples_append, ← leaders_eq_newerThan (heads_newest ordered)] at run
  simpa [lastFloor, taken] using run

/-- Imports of which one leaves nothing behind, with a stale and a malformed batch among them. -/
def staleImports : List (Batch × Millis) :=
  [(.idle 50 [10, 0, 30], 150), (⟨0, [1], [], [], []⟩, 200), (.idle 70 [0, 20], 400),
    (.idle 0 [85, 310, 300, 350], 400)]

theorem filter_staleImports : staleImports.filter (·.1.mergeable) =
    [(.idle 50 [10, 0, 30], 150), (.idle 70 [0, 20], 400), (.idle 0 [85, 310, 300, 350], 400)] := by
  have first : (Batch.idle 50 [10, 0, 30]).mergeable = true := by decide
  have second : (Batch.idle 70 [0, 20]).mergeable = true := by decide
  have third : (Batch.idle 0 [85, 310, 300, 350]).mergeable = true := by decide
  have malformed : Batch.mergeable ⟨0, [1], [], [], []⟩ = false := by decide
  simp [staleImports, first, second, third, malformed]

/-- The sample at 85 comes in after the series was emptied, but has left again with the window. -/
theorem times_replay_staleImports :
    staleImports.Pairwise (fun i j => i.2 ≤ j.2) ∧
      (replay ⟨[⟨50, 0.0, 0.0, 0.0⟩], some 50⟩ ⟨100⟩ staleImports).times = [310, 350] := by
  have clock : staleImports.Pairwise (fun i j => i.2 ≤ j.2) := by decide
  have taken : (staleImports.filter (·.1.mergeable)).getLast? =
      some (.idle 0 [85, 310, 300, 350], 400) := by
    rw [filter_staleImports]
    rfl
  have ordered : Ordered [⟨50, 0.0, 0.0, 0.0⟩] := List.pairwise_singleton ..
  refine ⟨clock, ?_⟩
  rw [times, samples_replay ordered clock taken, offered, filter_staleImports]
  decide

end Series
end MinerWatch
