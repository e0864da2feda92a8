import MinerWatch.Proofs.Engine.Operation
import MinerWatch.Proofs.Series.Columns
/-!
What holds of the series of an engine from the stored texts on.

The columns are loaded from any text and follow every operation on their own (`Columns.follow`). They
always show the series (`columns_follow`), whose samples are some last ones of those that were loaded,
and then samples that each came in as the newest (`Extends`). Only the loaded ones can repeat an instant.
-/

namespace MinerWatch

/-! ### Samples that come in as the newest -/

namespace Series

/-- Each of the later samples is newer than everything before it. -/
structure Newer (earlier later : List Sample) : Prop where
  ascending : Ascending later
  newer : ∀ p ∈ earlier, ∀ q ∈ later, p.time < q.time

theorem newer_nil (earlier : List Sample) : Newer earlier [] :=
  ⟨List.Pairwise.nil, by simp⟩

theorem newer_newerThan {s : Series} (h : Ordered s.samples) (batch : List Sample) :
    Newer s.samples (newerThan s.newest? batch) :=
  ⟨ascending_newerThan _ _, fun _ hp _ hq => lt_of_mem_newerThan h hp hq⟩

theorem Newer.sublist {earlier later earlier' later' : List Sample} (h : Newer earlier later)
    (old : earlier'.Sublist earlier) (new : later'.Sublist later) : Newer earlier' later' :=
  ⟨h.ascending.sublist new, fun p hp q hq => h.newer p (old.subset hp) q (new.subset hq)⟩

theorem Newer.append {earlier later last : List Sample} (h : Newer earlier later)
    (next : Newer (earlier ++ later) last) : Newer earlier (later ++ last) := by
  refine ⟨List.pairwise_append.mpr ⟨h.ascending, next.ascending, fun p hp q hq => ?_⟩,
    fun p hp q hq => ?_⟩
  · exact next.newer p (List.mem_append_right _ hp) q hq
  · rcases List.mem_append.mp hq with hq | hq
    · exact h.newer p hp q hq
    · exact next.newer p (List.mem_append_left _ hp) q hq

/-- The samples are some last ones of those that were loaded, and after them newer ones. -/
def Extends (loaded ss : List Sample) : Prop :=
  ∃ kept fresh, ss = kept ++ fresh ∧ kept <:+ loaded ∧ Newer kept fresh

theorem extends_self (loaded : List Sample) : Extends loaded loaded :=
  ⟨loaded, [], (List.append_nil loaded).symm, List.suffix_refl loaded, newer_nil loaded⟩

theorem extends_nil (loaded : List Sample) : Extends loaded [] :=
  ⟨[], [], rfl, List.nil_suffix, newer_nil []⟩

theorem Extends.append {loaded ss added : List Sample} (h : Extends loaded ss)
    (newer : Newer ss added) : Extends loaded (ss ++ added) := by
  obtain ⟨kept, fresh, rfl, suffix, before⟩ := h
  exact ⟨kept, fresh ++ added, List.append_assoc _ _ _, suffix, before.append newer⟩

theorem Extends.drop {loaded ss : List Sample} (h : Extends loaded ss) (n : Nat) :
    Extends loaded (ss.drop n) := by
  obtain ⟨kept, fresh, rfl, suffix, newer⟩ := h
  exact ⟨kept.drop n, fresh.drop (n - kept.length), List.drop_append,
    (List.drop_suffix n kept).trans suffix,
    newer.sublist (List.drop_sublist _ _) (List.drop_sublist _ _)⟩

/-- A merge adds the newer samples of the batch at the end, and then drops some at the front. -/
theorem exists_drop_absorb (s : Series) (w : Window) (b : Batch) (now : Millis) :
    ∃ n, (s.absorb w b now).1.samples =
      (s.samples ++ newerThan s.newest? b.samples).drop n := by
  refine ⟨((s.samples ++ newerThan s.newest? b.samples).takeWhile (·.time < w.floor now)).length, ?_⟩
  rw [Columns.drop_length_takeWhile]
  simp only [absorb]
  split <;> rfl

end Series

/-! ### Columns along a run -/

namespace Columns

/-- The columns after a batch without faults: they are appended to and then trimmed. -/
def absorb (c : Columns) (w : Window) (b : Batch) (now : Millis) : Columns :=
  (c.append b.samples).evict (w.floor now)

/-- The columns after an operation on the engine whose samples they hold. -/
def follow (c : Columns) (e : Engine) : Engine.Operation → Columns
  | .clear => {}
  | op =>
    match e.merged? op with
    | some (b, now) => c.absorb e.settings.window b now
    | none => c

def followAll (c : Columns) (e : Engine) : List Engine.Operation → Columns
  | [] => c
  | op :: ops => (c.follow e op).followAll (e.perform op) ops

theorem absorb_ofSamples {s : Series} (h : Series.Ordered s.samples) (w : Window) (b : Batch)
    (now : Millis) :
    (ofSamples s.samples).absorb w b now = ofSamples (s.absorb w b now).1.samples := by
  rw [absorb, append_ofSamples, evict_ofSamples (Series.ordered_append h b.samples)]
  simp only [Series.absorb]
  split <;> rfl

theorem follow_of_ne_clear (c : Columns) (e : Engine) {op : Engine.Operation} (kept : op ≠ .clear) :
    c.follow e op = match e.merged? op with
      | some (b, now) => c.absorb e.settings.window b now
      | none => c := by
  cases op with
  | clear => exact absurd rfl kept
  | _ => rfl

theorem follow_ofSamples {e : Engine} (h : Series.Ordered e.series.samples) (op : Engine.Operation) :
    (ofSamples e.series.samples).follow e op = ofSamples (e.perform op).series.samples := by
  rcases e.perform_cases op with
    ⟨rfl, -, series⟩ | ⟨kept, nothing, series⟩ | ⟨kept, b, now, merged, -, series⟩
  · rw [series]
    rfl
  · rw [series, follow_of_ne_clear _ e kept, nothing]
  · rw [series, follow_of_ne_clear _ e kept, merged]
    exact absorb_ofSamples h e.settings.window b now

end Columns

namespace Engine

variable {e : Engine}

theorem ordered_perform (h : Series.Ordered e.series.samples) (op : Operation) :
    Series.Ordered (e.perform op).series.samples := by
  rcases e.perform_cases op with ⟨-, -, series⟩ | ⟨-, -, series⟩ | ⟨-, b, now, -, -, series⟩
  · rw [series]
    exact List.Pairwise.nil
  · rw [series]
    exact h
  · rw [series]
    exact Series.ordered_absorb h e.settings.window b now

theorem ordered_after (h : Series.Ordered e.series.samples) (ops : List Operation) :
    Series.Ordered (e.after ops).series.samples := by
  induction ops generalizing e with
  | nil => exact h
  | cons op ops ih => exact ih (ordered_perform h op)

/-- Along a run the columns stay those of the series. -/
theorem columns_follow (h : Series.Ordered e.series.samples) (ops : List Operation) :
    (Columns.ofSamples e.series.samples).followAll e ops =
      .ofSamples (e.after ops).series.samples := by
  induction ops generalizing e with
  | nil => rfl
  | cons op ops ih =>
      rw [Columns.followAll, Columns.follow_ofSamples h, after_cons]
      exact ih (ordered_perform h op)

/-- Columns that start as the ones loaded from a text show the series ever after. -/
theorem shows_followAll {text : Option String} (loaded : e.series.samples = Archive.storedSamples text)
    (ops : List Operation) :
    ((Columns.stored text).followAll e ops).Shows (e.after ops).series := by
  have first : Series.Ordered e.series.samples := loaded ▸ Archive.ordered_storedSamples text
  rw [Columns.stored_eq, ← loaded, columns_follow first]
  exact Columns.shows_ofSamples _

/-- What a merge adds is newer than everything before it, and comes from the batch. -/
theorem exists_added (h : Series.Ordered e.series.samples) {op : Operation} {b : Batch} {now : Millis}
    (merged : e.merged? op = some (b, now)) :
    ∃ added, added.Sublist b.samples ∧ Series.Newer e.series.samples added ∧
      ∃ n, (e.perform op).series.samples = (e.series.samples ++ added).drop n := by
  obtain ⟨-, series⟩ := series_of_merged merged
  rw [series]
  exact ⟨_, Series.newerThan_sublist _ _, Series.newer_newerThan h _,
    e.series.exists_drop_absorb e.settings.window b now⟩

theorem extends_perform {loaded : List Sample} (h : Series.Ordered e.series.samples)
    (shown : Series.Extends loaded e.series.samples) (op : Operation) :
    Series.Extends loaded (e.perform op).series.samples := by
  rcases e.perform_cases op with ⟨-, -, series⟩ | ⟨-, -, series⟩ | ⟨-, b, now, merged, -, -⟩
  · rw [series]
    exact Series.extends_nil loaded
  · rw [series]
    exact shown
  · obtain ⟨added, -, newer, n, eq⟩ := exists_added h merged
    rw [eq]
    exact (shown.append newer).drop n

theorem extends_after {loaded : List Sample} (h : Series.Ordered e.series.samples)
    (shown : Series.Extends loaded e.series.samples) (ops : List Operation) :
    Series.Extends loaded (e.after ops).series.samples := by
  induction ops generalizing e with
  | nil => exact shown
  | cons op ops ih => exact ih (ordered_perform h op) (extends_perform h shown op)

/-- **The columns stay aligned and in order, whatever was stored.** An engine is restored from any
two texts, and after any operations its four columns, kept one by one, show the same samples
whichever way they are read; the labels do not go back, and what a merge adds is newer than
everything before it. So two samples of one instant are both among those that were loaded. -/
theorem columns_stay_aligned {settings : Settings} (sound : settings.fault? = none) (store : Store) :
    ∃ start, (restore store settings).value = .ok start ∧
      ∀ ops : List Operation,
        let e := start.after ops
        ((Columns.stored (store.read? settings.keys.chart)).followAll start ops).Shows e.series ∧
        Series.Ordered e.series.samples ∧
        Series.Extends start.series.samples e.series.samples ∧
        ∀ op b now, e.merged? op = some (b, now) →
          ∃ added, added.Sublist b.samples ∧ Series.Newer e.series.samples added ∧
            ∃ n, (e.perform op).series.samples = (e.series.samples ++ added).drop n := by
  refine ⟨_, restore_of_sound sound store, fun ops => ?_⟩
  have loaded : (Archive.load settings.keys store).value.samples =
      Archive.storedSamples (store.read? settings.keys.chart) := by
    rw [Archive.value_load]
  have first : Series.Ordered (Archive.load settings.keys store).value.samples :=
    loaded ▸ Archive.ordered_storedSamples _
  refine ⟨shows_followAll loaded ops, ordered_after first ops,
    extends_after first (Series.extends_self _) ops, fun op b now merged => ?_⟩
  exact exists_added (ordered_after first ops) merged

/-- A chart with a repeated label, and no cursor. -/
def repeating : Store where
  entries := [("chartData",
    "\x7b\"labels\":[4,4,9],\"dataData10m\":[1,2,3],\"dataData1h\":[1,2,3],\"dataData1d\":[1,2,3]\x7d")]

/-- The repeated label stays as long as nothing is evicted, and a batch that repeats the last one adds
only what is newer. -/
theorem columns_of_repeating :
    ∃ start, (restore repeating {}).value = .ok start ∧
      let ops := [.absorb (.idle 0 [9, 12, 11]) 20, .absorb ⟨0, [1], [], [], []⟩ 20]
      let c := (Columns.stored (repeating.read? "chartData")).followAll start ops
      c.points = (start.after ops).series.samples ∧
        c.points.map (·.time) = [4, 4, 9, 12] ∧ c.day.length = 4 := by
  have sound : Settings.fault? {} = none := by decide
  obtain ⟨start, restored, run⟩ := columns_stay_aligned sound repeating
  have shows := (run [.absorb (.idle 0 [9, 12, 11]) 20, .absorb ⟨0, [1], [], [], []⟩ 20]).1
  obtain ⟨-, rfl⟩ := restore_eq_ok restored
  refine ⟨_, restored, shows.points, ?_, ?_⟩
  · rw [shows.points]
    decide +kernel
  · rw [shows.day]
    decide +kernel

end Engine
end MinerWatch
