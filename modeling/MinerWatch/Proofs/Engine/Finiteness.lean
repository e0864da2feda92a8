import MinerWatch.Proofs.Engine.Operation
import MinerWatch.Proofs.Json.Null
/-!
Only finite averages are ever held or stored.

An average that is not finite is written as null, and then the whole chart does not read back
(`hasNull_writeChart_iff`). What is loaded from any text is finite, and so is every batch that is merged
(`Storable.absorb`), so this never happens along a run: `chart_perform` says what can be under the chart
key after an operation, and what was written there is loaded without a warning (`restores_writeChart`).
-/

namespace MinerWatch

namespace Archive

open Decimal Json

variable {keys : ArchiveKeys} {store : Store} {s : Series}

/-- What loading a chart that is in order leaves in the log. -/
def restoredNotice (s : Series) : Notice :=
  ⟨.info, component, "💾 Restored " ++ natText s.size ++ " points, cursor " ++ cursorText s.cursor, none⟩

/-- The text has no null, and from any store that has it as its chart the samples of the series come
back, and nothing is said against the chart. -/
structure Restores (keys : ArchiveKeys) (text : String) (s : Series) : Prop where
  noNull : ¬ HasNull text
  loads : ∀ store : Store, store.read? keys.chart = some text →
    List.Forall₂ Sample.ReloadsAs s.samples (load keys store).value.samples ∧
      (load keys store).notices =
        (loadCursor keys store).notices ++ [restoredNotice (load keys store).value]

/-! ### The text of a chart -/

theorem members_ofSeries (s : Series) : StoredChart.record.members (.ofSeries s) =
    [(some "labels", (Codec.list .word64).encode s.times),
      (some "dataData10m", (Codec.list .float).encode (s.samples.map (·.tenMin))),
      (some "dataData1h", (Codec.list .float).encode (s.samples.map (·.hour))),
      (some "dataData1d", (Codec.list .float).encode (s.samples.map (·.day)))] := rfl

theorem toList_writeChart (s : Series) :
    (writeChart s).toList = render (.obj (StoredChart.record.members (.ofSeries s))) :=
  String.toList_ofList

theorem n_not_mem_words (ws : List UInt64) : 'n' ∉ render ((Codec.list .word64).encode ws) := by
  apply n_not_mem_numbers
  intro v mem
  obtain ⟨w, -, rfl⟩ := List.mem_map.mp mem
  exact ⟨_, rfl⟩

theorem n_not_mem_floats {xs : List Float} (finite : ∀ x ∈ xs, x.isFinite = true) :
    'n' ∉ render ((Codec.list .float).encode xs) := by
  apply n_not_mem_numbers
  intro v mem
  obtain ⟨x, hx, rfl⟩ := List.mem_map.mp mem
  exact ⟨_, if_pos (finite x hx)⟩

theorem null_infix_floats {xs : List Float} {x : Float} (mem : x ∈ xs) (infinite : x.isFinite = false) :
    render .null <:+: render ((Codec.list .float).encode xs) := by
  have written : Codec.float.encode x = .null := if_neg (by simp [infinite])
  exact infix_arr (written ▸ List.mem_map_of_mem mem)

theorem n_not_mem_chart (finite : ∀ p ∈ s.samples, p.Finite) : 'n' ∉ (writeChart s).toList := by
  have column {f : Sample → Float} (all : ∀ p ∈ s.samples, (f p).isFinite = true) :
      'n' ∉ render ((Codec.list .float).encode (s.samples.map f)) := by
    apply n_not_mem_floats
    intro x hx
    obtain ⟨p, hp, rfl⟩ := List.mem_map.mp hx
    exact all p hp
  have names : ∀ k ∈ ["labels", "dataData10m", "dataData1h", "dataData1d"],
      'n' ∉ renderLiteral (some k) := by decide
  intro h
  rw [toList_writeChart, members_ofSeries] at h
  rcases mem_obj h with mark | ⟨m, mem, inside⟩
  · exact absurd mark (by decide)
  · simp only [List.mem_cons, List.not_mem_nil, or_false] at mem
    rcases mem with rfl | rfl | rfl | rfl
    · exact n_not_mem_words s.times (inside.resolve_left (names _ (by simp)))
    · exact column (fun p hp => (finite p hp).1) (inside.resolve_left (names _ (by simp)))
    · exact column (fun p hp => (finite p hp).2.1) (inside.resolve_left (names _ (by simp)))
    · exact column (fun p hp => (finite p hp).2.2) (inside.resolve_left (names _ (by simp)))

/-- **A chart contains a null just if one of its averages is not finite.** -/
theorem hasNull_writeChart_iff (s : Series) : HasNull (writeChart s) ↔ ∃ p ∈ s.samples, ¬ p.Finite := by
  constructor
  · intro null
    by_contra none
    have finite : ∀ p ∈ s.samples, p.Finite := by simpa using none
    exact n_not_mem_chart finite (null.subset List.mem_cons_self)
  · rintro ⟨p, hp, infinite⟩
    have column (name : String) {f : Sample → Float} (bad : (f p).isFinite = false)
        (mem : (some name, (Codec.list .float).encode (s.samples.map f)) ∈
          StoredChart.record.members (.ofSeries s)) : HasNull (writeChart s) := by
      have inside := (null_infix_floats (List.mem_map_of_mem hp) bad).trans (infix_obj mem)
      rwa [← toList_writeChart] at inside
    have bad : p.tenMin.isFinite = false ∨ p.hour.isFinite = false ∨ p.day.isFinite = false := by
      by_contra none
      simp only [not_or, Bool.not_eq_false] at none
      exact infinite none
    rcases bad with ten | one | whole
    · exact column "dataData10m" ten (by simp [members_ofSeries])
    · exact column "dataData1h" one (by simp [members_ofSeries])
    · exact column "dataData1d" whole (by simp [members_ofSeries])

/-- What is written of a storable series is loaded again, and nothing is said against it. -/
theorem restores_writeChart (storable : Storable s.samples) : Restores keys (writeChart s) s := by
  obtain ⟨qs, reloads, -⟩ := exists_forall₂_reloadsAs storable.finite
  have read : StoredChart.record.codec.read (writeChart s) = _ := (returns_ofSeries reloads).read_write
  have ordered := ordered_of_reloadsAs reloads storable.ordered
  refine ⟨fun null => ?_, fun store entry => ?_⟩
  · obtain ⟨p, hp, infinite⟩ := (hasNull_writeChart_iff s).mp null
    exact infinite (storable.finite p hp)
  · have built := Series.ofColumns_map ordered (loadCursor keys store).value
    have loaded : (load keys store).value = ⟨qs, (loadCursor keys store).value⟩ := by
      simp only [load, entry, Logged.value_bind, readChart, read, Logged.value_pure, built]
    refine ⟨by rwa [loaded], ?_⟩
    rw [loaded]
    simp only [load, entry, Logged.notices_bind, readChart, read, Logged.value_pure, built]
    rfl

/-- Removing an entry puts nothing under a key. -/
theorem entry?_remove_cases (store : Store) (other key : String) :
    Store.entry? (store.remove other).value key = store.entry? key ∨
      Store.entry? (store.remove other).value key = none := by
  cases granted : store.guard.refusesRemoval other with
  | some reason =>
      left
      simp only [Store.remove, granted, Logged.value_bind, Logged.value_pure]
  | none =>
      rw [Store.remove_of_granted granted]
      by_cases same : key = other
      · rw [same]
        exact .inr (Store.lookup_dropEntry_self other store.entries)
      · exact .inl (Store.lookup_dropEntry_of_ne same store.entries)

theorem entry?_clear_cases (keys : ArchiveKeys) (store : Store) (key : String) :
    Store.entry? (clear keys store).value key = store.entry? key ∨
      Store.entry? (clear keys store).value key = none := by
  simp only [clear, Logged.value_bind]
  rcases entry?_remove_cases (store.remove keys.chart).value keys.cursor key with kept | gone
  · rw [kept]
    exact entry?_remove_cases store keys.chart key
  · exact .inr gone

end Archive

namespace Engine

open Archive

variable {e e' start : Engine} {op : Operation} {store : Store} {settings : Settings}

theorem storable_perform (h : Storable e.series.samples) (op : Operation) :
    Storable (e.perform op).series.samples := by
  rcases e.perform_cases op with ⟨-, -, series⟩ | ⟨-, -, series⟩ | ⟨-, b, now, -, mergeable, series⟩
  · rw [series]
    exact storable_nil
  · rw [series]
    exact h
  · rw [series]
    exact h.absorb (Batch.mergeable_iff.mp mergeable).2 e.settings.window now

theorem storable_after (h : Storable e.series.samples) (ops : List Operation) :
    Storable (e.after ops).series.samples := by
  induction ops generalizing e with
  | nil => exact h
  | cons op ops ih => exact ih (storable_perform h op)

/-- After a merge the chart is that of the merged series, unless the host refused to write it. -/
theorem Merges.chart (m : e.Merges e') (distinct : e.settings.keys.chart ≠ e.settings.keys.cursor) :
    (e.store.guard.refusesWrite e.settings.keys.chart ≠ none ∧ e'.store = e.store) ∨
    e'.store.entry? e.settings.keys.chart = some (writeChart e'.series) := by
  obtain ⟨cursor, known, -⟩ := m.exists_cursor
  rw [m.store]
  rcases save_cases e.settings.keys known e.store with ⟨refused, eq⟩ | ⟨-, eq⟩ | eq
  · exact .inl ⟨refused, eq⟩
  · rw [eq, holdingChart, Store.entry?, Store.lookup_putEntry_self]
    exact .inr rfl
  · rw [eq]
    exact .inr (entry?_holding e'.series cursor e.store distinct).1

/-- All that an operation of the engine can do to the chart: it stays, it is removed, or it is written. -/
theorem chart_perform (own : op.own = true)
    (distinct : e.settings.keys.chart ≠ e.settings.keys.cursor) :
    (e.perform op).store.entry? e.settings.keys.chart = e.store.entry? e.settings.keys.chart ∨
    (e.perform op).store.entry? e.settings.keys.chart = none ∨
    (e.perform op).store.entry? e.settings.keys.chart = some (writeChart (e.perform op).series) := by
  by_cases clears : op = .clear
  · rw [clears, perform, value_clear]
    rcases entry?_clear_cases e.settings.keys e.store e.settings.keys.chart with kept | gone
    · exact .inl kept
    · exact .inr (.inl gone)
  · have step : Step (fun _ => True) e (e.perform op) := step_perform own clears
    rcases step.cases with rests | merges
    · left
      rw [Store.entry?, rests.entries, Store.entry?]
    · rcases merges.chart distinct with ⟨-, same⟩ | written
      · exact .inl (by rw [same])
      · exact .inr (.inr written)

/-- **Only finite averages are ever held or stored.** An engine is restored from any store, and then
polls, takes batches, is cleared, and finds its store changed by others, in any order and with any
floats in what it is sent. All averages it ever has are finite. And whatever an operation of its own puts
under the chart key has no null in it and is loaded without a warning; it puts something there whenever a
batch is merged and the host lets it be written. -/
theorem only_finite_averages (restored : (restore store settings).value = .ok start)
    (ops : List Operation) :
    let e := start.after ops
    (∀ p ∈ e.series.samples, p.Finite) ∧
    ∀ op : Operation, op.own = true →
      let e' := e.perform op
      (∀ text, e'.store.entry? settings.keys.chart = some text →
        e.store.entry? settings.keys.chart = some text ∨ Restores settings.keys text e'.series) ∧
      ((e.merged? op).isSome → e.store.guard.refusesWrite settings.keys.chart = none →
        ∃ text, e'.store.entry? settings.keys.chart = some text ∧
          Restores settings.keys text e'.series) := by
  intro e
  obtain ⟨sound, rfl⟩ := restore_eq_ok restored
  have same : e.settings = settings := settings_after _ ops
  have distinct : e.settings.keys.chart ≠ e.settings.keys.cursor := by
    rw [same]
    exact Settings.keys_ne sound
  have storable : Storable e.series.samples := storable_after (storable_load settings.keys store) ops
  refine ⟨storable.finite, fun op own => ?_⟩
  have restores : Restores settings.keys (writeChart (e.perform op).series) (e.perform op).series :=
    restores_writeChart (storable_perform storable op)
  refine ⟨fun text entry => ?_, fun merged granted => ?_⟩
  · have chart := chart_perform own distinct
    rw [same] at chart
    rcases chart with kept | removed | written
    · exact .inl (kept.symm.trans entry)
    · exact absurd (removed.symm.trans entry) (by simp)
    · exact .inr (Option.some.inj (written.symm.trans entry) ▸ restores)
  · obtain ⟨⟨b, now⟩, eq⟩ := Option.isSome_iff_exists.mp merged
    have chart := (merges_of_merged eq).chart distinct
    rw [same] at chart
    rcases chart with ⟨refused, -⟩ | written
    · exact absurd granted refused
    · exact ⟨_, written, restores⟩

/-- A chart with a null in it. -/
def nullChart : String :=
  "\x7b\"labels\":[5],\"dataData10m\":[null],\"dataData1h\":[1.0],\"dataData1d\":[1.0]\x7d"

def nullStore : Store where
  entries := [("chartData", nullChart)]

/-- What is restored from it. -/
def afflicted : Engine where
  settings := {}
  store := nullStore
  series := (load {} nullStore).value

/-- A batch with an average that is finite as it is sent, but not in H/s. -/
def oversized : Batch :=
  ⟨0, [5], [.ofBits 0x7fe0000000000000], [1.0], [1.0]⟩

/-- The null is not loaded and the batch is refused; when another batch is merged, the null is gone. -/
theorem finite_of_afflicted :
    (restore nullStore {}).value = .ok afflicted ∧ Json.HasNull nullChart ∧
      let e := afflicted.perform (.absorb oversized 100)
      let e' := e.perform (.absorb (.idle 0 [5]) 100)
      e.store.entry? "chartData" = some nullChart ∧ e.series.times = [] ∧
        e'.series.times = [5] ∧ (∀ p ∈ e'.series.samples, p.Finite) ∧
        ∃ text, e'.store.entry? "chartData" = some text ∧ Restores {} text e'.series := by
  have sound : Settings.fault? {} = none := by decide
  have restored : (restore nullStore {}).value = .ok afflicted := restore_of_sound sound nullStore
  obtain ⟨-, next⟩ := only_finite_averages restored [.absorb oversized 100]
  obtain ⟨finite, -⟩ :=
    only_finite_averages restored [.absorb oversized 100, .absorb (.idle 0 [5]) 100]
  obtain ⟨-, written⟩ := next (.absorb (.idle 0 [5]) 100) rfl
  simp only [after_cons, after_nil] at finite written
  refine ⟨restored, ?_, ?_, ?_, ?_, finite, written ?_ ?_⟩
  · decide +kernel
  · decide
  · decide +kernel
  · decide +kernel
  · decide +kernel
  · decide

end Engine
end MinerWatch
