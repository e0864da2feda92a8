import MinerWatch.Proofs.Engine.Course
import MinerWatch.Proofs.Engine.LatestWins
import MinerWatch.Proofs.Series.RoundTrip
/-!
What a second engine makes of the store of a running one.

The two entries are written one after the other, so they may belong to different series. `Holds`
keeps them apart; `Merges.holds` says what one merge does to them. If the host takes every write,
both entries always belong to the series shown, and a reload is invisible. If it refuses some, the
chart still belongs to a series that is no older than the one the cursor belongs to.
-/

namespace MinerWatch

namespace Archive

variable {keys : ArchiveKeys} {store : Store} {position points : Series}

theorem Holds.of_entries (h : Holds keys store position points) {store' : Store}
    (same : store'.entries = store.entries) : Holds keys store' position points := by
  have entries : ∀ key, store'.entry? key = store.entry? key := fun key => by
    rw [Store.entry?, same, Store.entry?]
  constructor
  · rw [entries]
    exact h.cursor
  · rw [entries]
    exact h.chart

theorem Holds.load (h : Holds keys store position points) (reads : store.guard.Reads keys) :
    (load keys store).value.cursor = position.cursor ∧
      ComesBackAs points.samples (load keys store).value.samples := by
  rw [value_load, Store.read?_of_readable reads.1, Store.read?_of_readable reads.2]
  exact ⟨h.cursor, h.chart⟩

theorem holds_load (reads : store.guard.Reads keys) :
    Holds keys store (Archive.load keys store).value (Archive.load keys store).value := by
  rw [value_load, Store.read?_of_readable reads.1, Store.read?_of_readable reads.2]
  exact ⟨rfl, .inl rfl⟩

theorem holds_clear (removes : store.guard.Removes keys) :
    Holds keys (clear keys store).value .empty .empty := by
  obtain ⟨chart, cursor⟩ := entry?_clear removes
  constructor
  · rw [cursor]
    rfl
  · rw [chart]
    exact .inl rfl

end Archive

namespace Engine

open Archive

variable {e e' start : Engine} {store : Store} {settings : Settings} {past : List Series}
  {position points : Series} {mood : Guard → Prop}

/-- After a merge both entries belong to the new series, or a write was refused: then the cursor
belongs to what it did before, and the chart does so too or belongs to the new series. -/
theorem Merges.holds (m : e.Merges e') (distinct : e.settings.keys.chart ≠ e.settings.keys.cursor)
    (storable : Storable e.series.samples) (h : Holds e.settings.keys e.store position points) :
    Holds e.settings.keys e'.store e'.series e'.series ∨
    (¬ e.store.guard.Writes e.settings.keys ∧
      (Holds e.settings.keys e'.store position points ∨
        Holds e.settings.keys e'.store position e'.series)) := by
  have new := m.storable storable
  obtain ⟨cursor, known, -⟩ := m.exists_cursor
  rw [m.store]
  rcases save_cases e.settings.keys known e.store with ⟨refused, eq⟩ | ⟨refused, eq⟩ | eq
  · rw [eq]
    exact .inr ⟨fun writes => refused writes.1, .inl h⟩
  · rw [eq]
    exact .inr ⟨fun writes => refused writes.2, .inr (h.chartWritten distinct new)⟩
  · rw [eq]
    exact .inl (holds_holding e.store distinct new known)

/-! ### A host that takes every write -/

/-- The store holds the series of the engine, which can be loaded again. -/
structure Mirrored (e : Engine) : Prop where
  storable : Storable e.series.samples
  holds : Holds e.settings.keys e.store e.series e.series

theorem Mirrored.step (h : e.Mirrored) (step : Step mood e e')
    (distinct : e.settings.keys.chart ≠ e.settings.keys.cursor)
    (writes : e.store.guard.Writes e.settings.keys) : e'.Mirrored := by
  rcases step.cases with rests | merges
  · refine ⟨?_, ?_⟩
    · rw [rests.series]
      exact h.storable
    · rw [step.settings, rests.series]
      exact h.holds.of_entries rests.entries
  · refine ⟨merges.storable h.storable, ?_⟩
    rw [step.settings]
    rcases merges.holds distinct h.storable h.holds with holds | ⟨refused, -⟩
    · exact holds
    · exact absurd writes refused

theorem Course.mirrored (course : Course (Obliging start.settings.keys) start e past)
    (distinct : start.settings.keys.chart ≠ start.settings.keys.cursor) (h : start.Mirrored) :
    e.Mirrored := by
  induction course with
  | start _ => exact h
  | step course step ih =>
      have same := course.settings
      apply ih.step step
      · rw [same]
        exact distinct
      · rw [same]
        exact course.granted.writes
  | @clear e past course ih =>
      have removes : e.store.guard.Removes e.settings.keys := by
        rw [course.settings]
        exact course.granted.removes
      exact ⟨storable_nil, holds_clear removes⟩

/-- **A reload at any moment is invisible.** Whatever the store held at first, if the host then
grants everything, an engine restored at any point of a course shows the same instants, has as many
values in each curve and the same cursor, and so would ask for the same history next. -/
theorem reload_is_invisible (restored : (restore store settings).value = .ok start)
    (course : Course (Obliging settings.keys) start e past) :
    ∃ again, (restore e.store settings).value = .ok again ∧
      again.series.times = e.series.times ∧
      again.series.chart.tenMin.length = e.series.chart.tenMin.length ∧
      again.series.chart.hour.length = e.series.chart.hour.length ∧
      again.series.chart.day.length = e.series.chart.day.length ∧
      again.series.cursor = e.series.cursor ∧
      ∀ now, again.nextStart now = e.nextStart now := by
  obtain ⟨sound, rfl⟩ := restore_eq_ok restored
  have same : e.settings = settings := course.settings
  have start : Mirrored { settings, store, series := (load settings.keys store).value } :=
    ⟨storable_load settings.keys store, holds_load course.granted_start.reads⟩
  have mirrored := course.mirrored (Settings.keys_ne sound) start
  have holds : Holds settings.keys e.store e.series e.series := same ▸ mirrored.holds
  obtain ⟨cursor, samples⟩ := holds.load course.granted.reads
  have times : (load settings.keys e.store).value.times = e.series.times := samples.times
  have size : (load settings.keys e.store).value.samples.length = e.series.samples.length := by
    simpa [Series.times] using congrArg List.length times
  refine ⟨_, restore_of_sound sound e.store, times, ?_, ?_, ?_, cursor, fun now => ?_⟩
  · simpa [Series.chart, Chart.ofSamples] using size
  · simpa [Series.chart, Chart.ofSamples] using size
  · simpa [Series.chart, Chart.ofSamples] using size
  · simp only [nextStart, same, cursor]

/-- A store with a chart entry that was cut off and a cursor entry with blanks around it. -/
def wornStore : Store where
  entries := [("chartData", "[[1000"), ("lastTimestamp", " 7 ")]

/-- What is restored from it knows only the cursor; what is merged then is there after a reload. -/
theorem reload_after_merge_into_wornStore :
    ∃ start e again : Engine, (restore wornStore {}).value = .ok start ∧
      start.series.times = [] ∧ start.series.cursor = some 7 ∧
      e = (start.absorb (.idle 0 [5, 10, 20]) 100).value.1 ∧
      (restore e.store {}).value = .ok again ∧
      again.series.times = [5, 10, 20] ∧ again.nextStart 100 = 21 := by
  have sound : Settings.fault? {} = none := by decide
  have restored := restore_of_sound sound wornStore
  have obliging : Obliging {} wornStore.guard := ⟨⟨rfl, rfl⟩, ⟨rfl, rfl⟩, ⟨rfl, rfl⟩⟩
  have merged := Course.step (.start obliging)
    (.absorb (e := ⟨{}, wornStore, (load {} wornStore).value, 0, none, none⟩) (.idle 0 [5, 10, 20]) 100)
  obtain ⟨again, loaded, times, -, -, -, -, next⟩ := reload_is_invisible restored merged
  refine ⟨_, _, again, restored, ?_, ?_, rfl, loaded, ?_, ?_⟩
  · decide
  · decide
  · exact times.trans (by decide)
  · exact (next 100).trans (by decide)

/-! ### A host that refuses some writes -/

/-- The host may refuse to write, but nothing else. -/
structure Balking (keys : ArchiveKeys) (g : Guard) : Prop where
  reads : g.Reads keys
  removes : g.Removes keys

/-- The store holds the cursor of one series of the past and the samples of the same or a later one. -/
structure Trails (e : Engine) (past : List Series) : Prop where
  storable : Storable e.series.samples
  newest : past.getLast? = some e.series
  rising : past.Pairwise Series.CursorLe
  held : ∃ (i j : Nat) (position points : Series), i ≤ j ∧ past[i]? = some position ∧ past[j]? = some points ∧
    Holds e.settings.keys e.store position points

theorem trails_singleton (storable : Storable e.series.samples)
    (h : Holds e.settings.keys e.store e.series e.series) : e.Trails [e.series] where
  storable := storable
  newest := rfl
  rising := List.pairwise_singleton ..
  held := ⟨0, 0, e.series, e.series, Nat.le_refl 0, rfl, rfl, h⟩

theorem Trails.rising_concat (h : e.Trails past) (le : e.series.CursorLe e'.series) :
    (past ++ [e'.series]).Pairwise Series.CursorLe := by
  obtain ⟨init, rfl⟩ := List.getLast?_eq_some_iff.mp h.newest
  apply List.pairwise_append.mpr
  refine ⟨h.rising, List.pairwise_singleton .., fun s hs s' hs' => ?_⟩
  obtain rfl := List.mem_singleton.mp hs'
  rcases List.mem_append.mp hs with hs | hs
  · exact ((List.pairwise_append.mp h.rising).2.2 s hs e.series (by simp)).trans le
  · obtain rfl := List.mem_singleton.mp hs
    exact le

theorem Trails.step (h : e.Trails past) (step : Step mood e e')
    (distinct : e.settings.keys.chart ≠ e.settings.keys.cursor) :
    e'.Trails (past ++ [e'.series]) := by
  obtain ⟨i, j, position, points, le, hi, hj, holds⟩ := h.held
  have iBound : i < past.length := (List.getElem?_eq_some_iff.mp hi).1
  have jBound : j < past.length := (List.getElem?_eq_some_iff.mp hj).1
  have hi' : (past ++ [e'.series])[i]? = some position := (List.getElem?_append_left iBound).trans hi
  have hj' : (past ++ [e'.series])[j]? = some points := (List.getElem?_append_left jBound).trans hj
  have new : (past ++ [e'.series])[past.length]? = some e'.series := List.getElem?_concat_length
  rcases step.cases with rests | merges
  · refine ⟨?_, List.getLast?_concat, ?_, i, j, position, points, le, hi', hj', ?_⟩
    · rw [rests.series]
      exact h.storable
    · apply h.rising_concat
      rw [rests.series]
      exact .refl _
    · rw [step.settings]
      exact holds.of_entries rests.entries
  · obtain ⟨_, -, further⟩ := merges.exists_cursor
    refine ⟨merges.storable h.storable, List.getLast?_concat, h.rising_concat further, ?_⟩
    rw [step.settings]
    rcases merges.holds distinct h.storable holds with both | ⟨-, neither | chart⟩
    · exact ⟨_, _, _, _, Nat.le_refl _, new, new, both⟩
    · exact ⟨i, j, position, points, le, hi', hj', neither⟩
    · exact ⟨i, past.length, position, e'.series, Nat.le_of_lt iBound, hi', new, chart⟩

theorem Course.trails
    (course : Course (Balking start.settings.keys) start e past)
    (distinct : start.settings.keys.chart ≠ start.settings.keys.cursor)
    (h : start.Trails [start.series]) : e.Trails past := by
  induction course with
  | start _ => exact h
  | step course step ih =>
      apply ih.step step
      rw [course.settings]
      exact distinct
  | @clear e past course ih =>
      have removes : e.store.guard.Removes e.settings.keys := by
        rw [course.settings]
        exact course.granted.removes
      exact trails_singleton storable_nil (holds_clear removes)

/-- **A torn save never puts the cursor ahead of the samples.** Whichever writes the host refuses, a
reload finds the cursor of one series of the past and the samples of the same or a later one, as they
come back: wherever an average is short, just as it was. So its cursor is no later than the one that
went with its samples. -/
theorem reload_after_torn_saves (restored : (restore store settings).value = .ok start)
    (course : Course (Balking settings.keys) start e past) :
    ∃ again, (restore e.store settings).value = .ok again ∧
      ∃ (i j : Nat) (position points : Series), i ≤ j ∧
        past[i]? = some position ∧ past[j]? = some points ∧
        again.series.cursor = position.cursor ∧
        ComesBackAs points.samples again.series.samples ∧
        List.Forall₂ Sample.KeepsShort points.samples again.series.samples ∧
        again.series.CursorLe points := by
  obtain ⟨sound, rfl⟩ := restore_eq_ok restored
  have same : e.settings = settings := course.settings
  have start : Trails { settings, store, series := (load settings.keys store).value }
      [(load settings.keys store).value] :=
    trails_singleton (storable_load settings.keys store) (holds_load course.granted_start.reads)
  have trails := course.trails (Settings.keys_ne sound) start
  obtain ⟨i, j, position, points, le, hi, hj, holds⟩ := trails.held
  rw [same] at holds
  obtain ⟨cursor, samples⟩ := holds.load course.granted.reads
  refine ⟨_, restore_of_sound sound e.store, i, j, position, points, le, hi, hj, cursor, samples,
    samples.keepsShort, ?_⟩
  have older : position.CursorLe points := by
    rcases Nat.eq_or_lt_of_le le with rfl | lt
    · obtain rfl := Option.some.inj (hi.symm.trans hj)
      exact .refl _
    · obtain ⟨iBound, rfl⟩ := List.getElem?_eq_some_iff.mp hi
      obtain ⟨jBound, rfl⟩ := List.getElem?_eq_some_iff.mp hj
      exact List.pairwise_iff_getElem.mp trails.rising i j iBound jBound lt
  exact fun c hc => older c (cursor.symm.trans hc)

/-- An engine whose store takes charts but no cursor. -/
def balkyEngine : Engine where
  settings := {}
  store := { entries := [], guard := .inMemory false ["lastTimestamp"] }
  series := .empty

theorem balking_balkyEngine : Balking {} balkyEngine.store.guard :=
  ⟨⟨rfl, rfl⟩, ⟨rfl, rfl⟩⟩

theorem restore_balkyEngine : (restore balkyEngine.store {}).value = .ok balkyEngine := by
  have sound : Settings.fault? {} = none := by decide
  rw [restore_of_sound sound, value_load]
  rfl

/-- The chart is written and the cursor refused. -/
theorem reload_of_balkyEngine :
    ∃ e again : Engine, e = (balkyEngine.absorb (.idle 0 [5, 10, 20]) 100).value.1 ∧
      (restore e.store {}).value = .ok again ∧
      ∃ points ∈ [Series.empty, e.series],
        again.series.times = points.times ∧ again.series.CursorLe points := by
  have merged := Course.step (.start balking_balkyEngine) (.absorb (.idle 0 [5, 10, 20]) 100)
  obtain ⟨again, loaded, _, j, _, points, -, -, hj, -, samples, -, le⟩ :=
    reload_after_torn_saves restore_balkyEngine merged
  exact ⟨_, again, rfl, loaded, points, List.mem_of_getElem? hj, samples.times, le⟩

/-- A chart need not load as the samples of any series of the past, even if nothing is refused. -/
theorem chart_of_no_series :
    (restore { entries := [] } {}).value = .ok blank ∧
      ∃ (e again : Engine) (past : List Series), Course (Balking {}) blank e past ∧
        (restore e.store {}).value = .ok again ∧
        ∀ points ∈ past, again.series.samples ≠ points.samples := by
  have sound : Settings.fault? {} = none := by decide
  have balking : Balking {} blank.store.guard := ⟨⟨rfl, rfl⟩, ⟨rfl, rfl⟩⟩
  have serves : ∀ key, blank.store.Serves key := fun _ => ⟨rfl, rfl⟩
  have merged := Course.step (.start balking) (.absorb .drifting 1000)
  have saved : (blank.absorb .drifting 1000).value.1 = blank.saved .drifting :=
    congrArg Prod.fst (absorb_of_mergeable blank mergeable_drifting 1000)
  have held : (blank.saved .drifting).store = holding {} .drifting 1000 { entries := [] } := by
    rw [Engine.saved, save_of_serves (serves _) (serves _) cursor_drifting]
    rfl
  rw [saved] at merged
  refine ⟨restore_blank, _, _, _, merged, restore_of_sound sound _, ?_⟩
  rw [held, value_load_drifting]
  intro points mem
  rcases List.mem_pair.mp mem with rfl | rfl
  · simp [blank, Series.empty]
  · have samples : (blank.saved .drifting).series.samples = [.beforeDrift] := samples_drifting
    simpa [samples] using afterDrift_ne

end Engine
end MinerWatch
