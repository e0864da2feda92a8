import MinerWatch.Proofs.Engine.LatestWins
import MinerWatch.Proofs.Series.Archive
import MinerWatch.Proofs.Series.Coverage
/-!
No sample is missed, and none is shown twice.

An engine stands between a device that records samples and a store that keeps the series. It
polls and fills in from wherever its cursor is at the moment, takes the answers whenever they
come, and may be restarted at any time. `labels_after_import` says what its series shows after
every import: exactly what the device recorded between the floor of the window and the
cursor. Two invariants carry it. The store always holds what the series shows (`Archived`), and
no request that is still out starts too late (`World.Sound`).
-/

namespace MinerWatch

/-- A store that takes a series under the two keys, and holds none yet. -/
structure Store.Fresh (store : Store) (keys : ArchiveKeys) : Prop where
  chart : store.Serves keys.chart
  cursor : store.Serves keys.cursor
  noChart : store.entry? keys.chart = none
  noCursor : store.entry? keys.cursor = none

theorem Archive.load_fresh {keys : ArchiveKeys} {store : Store} (fresh : store.Fresh keys) :
    (load keys store).value = .empty := by
  have chart : store.read? keys.chart = none :=
    (Store.read?_of_readable fresh.chart.1).trans fresh.noChart
  have cursor : store.read? keys.cursor = none :=
    (Store.read?_of_readable fresh.cursor.1).trans fresh.noCursor
  simp only [load, loadCursor, chart, cursor, Logged.value_bind, Logged.value_pure]
  rfl

namespace Engine

/-- The store takes the series, and what is loaded from it shows what the series shows. -/
structure Archived (e : Engine) : Prop where
  distinct : e.settings.keys.chart ≠ e.settings.keys.cursor
  chart : e.store.Serves e.settings.keys.chart
  cursor : e.store.Serves e.settings.keys.cursor
  finite : ∀ p ∈ e.series.samples, p.Finite
  kept : (Archive.load e.settings.keys e.store).value.Shows e.series.times e.series.cursor

variable {e e' : Engine} {store : Store} {settings : Settings}

theorem archived_of_fresh (fresh : store.Fresh settings.keys)
    (restored : (restore store settings).value = .ok e) : e.Archived := by
  obtain ⟨sound, rfl⟩ := restore_eq_ok restored
  have empty := Archive.load_fresh fresh
  refine ⟨Settings.keys_ne sound, fresh.chart, fresh.cursor, ?_, rfl, rfl, ?_⟩
  all_goals
    rw [empty]
    exact fun p hp => absurd hp (by simp [Series.empty])

theorem Archived.restore (h : e.Archived)
    (restored : (restore e.store e.settings).value = .ok e') :
    e'.Archived ∧ e'.series.times = e.series.times ∧ e'.series.cursor = e.series.cursor := by
  obtain ⟨-, rfl⟩ := restore_eq_ok restored
  refine ⟨⟨h.distinct, h.chart, h.cursor, h.kept.finite, rfl, rfl, h.kept.finite⟩, ?_, ?_⟩
  · exact h.kept.times
  · exact h.kept.cursor

theorem Archived.saved (h : e.Archived) {s : Series} {c : Millis} (ordered : Series.Ordered s.samples)
    (finite : ∀ p ∈ s.samples, p.Finite) (cursor : s.cursor = some c) : (e.saved s).Archived := by
  have store : (e.saved s).store = Archive.holding e.settings.keys s c e.store := by
    rw [Engine.saved, Archive.save_of_serves h.chart h.cursor cursor]
  refine ⟨h.distinct, ?_, ?_, finite, ?_⟩
  · rw [store]
    exact Archive.serves_holding h.chart
  · rw [store]
    exact Archive.serves_holding h.cursor
  · rw [store]
    show Series.Shows _ s.times s.cursor
    rw [cursor]
    exact Archive.load_holding h.chart h.cursor h.distinct ordered finite

end Engine

/-! ### The device, the requests and the engine -/

/-- A device, the requests that are out, and the engine that made them. -/
structure World where
  /-- The instants of all samples that the device has recorded. -/
  recorded : List Millis
  clock : Millis
  engine : Engine
  /-- The tickets issued since the last restart. -/
  polls : List Ticket := []
  /-- Where the backfills start that were asked for since the last restart. -/
  starts : List Millis := []

namespace World

/-- The answer is a failure, or an honest answer to a request from `start`. -/
def Honest (w : World) (start : Millis) (response : Response) : Prop :=
  ∀ report batch, response = .ok report → report.history = some batch → batch.Answers w.recorded start

/-- What can happen, in any order and any number of times. An answer may come at any time after
its request, again, or never. -/
inductive Reached (start : Engine) : World → Prop where
  | start {recorded} (forward : recorded.Pairwise (· < ·)) (clock : Millis) :
      Reached start { recorded, clock, engine := start }
  | record {w} (run : Reached start w) {t : Millis} (newer : ∀ u ∈ w.recorded, u < t) :
      Reached start { w with recorded := w.recorded ++ [t] }
  | pass {w} (run : Reached start w) {now : Millis} (later : w.clock ≤ now) :
      Reached start { w with clock := now }
  | poll {w} (run : Reached start w) :
      Reached start { w with
        engine := (w.engine.issue w.clock).value.1
        polls := w.polls ++ [(w.engine.issue w.clock).value.2] }
  | answer {w} (run : Reached start w) {t : Ticket} (known : t ∈ w.polls) {response : Response}
      (honest : w.Honest t.start response) :
      Reached start { w with engine := (w.engine.complete t response w.clock).value.1 }
  | ask {w} (run : Reached start w) :
      Reached start { w with starts := w.starts ++ [w.engine.nextStart w.clock] }
  | backfill {w} (run : Reached start w) {from_ : Millis} (known : from_ ∈ w.starts) {b : Batch}
      (answers : b.Answers w.recorded from_) :
      Reached start { w with engine := (w.engine.absorb b w.clock).value.1 }
  | restart {w} (run : Reached start w) {e : Engine}
      (restored : (Engine.restore w.engine.store w.engine.settings).value = .ok e) :
      Reached start { recorded := w.recorded, clock := w.clock, engine := e }

/-- The imports that are neither skipped nor rejected: the batch, and the engine after it. -/
inductive Imports (w : World) : Batch → Engine → Prop where
  | answer {t : Ticket} (known : t ∈ w.polls) {report : DeviceInfo} {b : Batch}
      (history : report.history = some b) (answers : b.Answers w.recorded t.start)
      {info : DeviceInfo} {merged : MergeReport}
      (taken : (w.engine.complete t (.ok report) w.clock).value.2 = .updated info (some merged))
      (filled : merged.skipped = false) :
      Imports w b (w.engine.complete t (.ok report) w.clock).value.1
  | backfill {start : Millis} (known : start ∈ w.starts) {b : Batch}
      (answers : b.Answers w.recorded start) {merged : MergeReport}
      (taken : (w.engine.absorb b w.clock).value.2 = .ok merged) (filled : merged.skipped = false) :
      Imports w b (w.engine.absorb b w.clock).value.1

variable {w : World} {start : Millis} {b : Batch}

/-- An honest answer that carries anything is taken in. -/
theorem imports_of_backfill (known : start ∈ w.starts) (answers : b.Answers w.recorded start)
    (filled : b.isEmpty = false) : w.Imports b (w.engine.absorb b w.clock).value.1 := by
  have mergeable := Batch.mergeable_iff.mpr ⟨filled, answers.sound⟩
  have eq := Engine.absorb_of_mergeable w.engine mergeable w.clock
  exact .backfill known answers (congrArg Prod.snd eq) rfl

/-! ### The invariant -/

/-- The oldest instant in the window now. -/
def floor (w : World) : Millis :=
  w.engine.settings.window.floor w.clock

/-- The series covers what was recorded from a floor of the past on, the store holds it, and no
request that is out starts too late. -/
structure Sound (w : World) : Prop where
  forward : w.recorded.Pairwise (· < ·)
  archived : w.engine.Archived
  covers : ∃ floor ≤ w.floor, w.engine.series.Covers w.recorded floor
  polls : ∀ t ∈ w.polls, Reaches t.start w.floor w.engine.series.cursor
  starts : ∀ start ∈ w.starts, Reaches start w.floor w.engine.series.cursor

theorem Sound.record (h : w.Sound) {t : Millis} (newer : ∀ u ∈ w.recorded, u < t) :
    Sound { w with recorded := w.recorded ++ [t] } where
  forward := by
    refine List.pairwise_append.mpr ⟨h.forward, List.pairwise_singleton .., fun u hu v hv => ?_⟩
    obtain rfl := List.mem_singleton.mp hv
    exact newer u hu
  archived := h.archived
  covers := by
    obtain ⟨floor, le, covers⟩ := h.covers
    exact ⟨floor, le, covers.record newer⟩
  polls := h.polls
  starts := h.starts

theorem Sound.pass (h : w.Sound) {now : Millis} (later : w.clock ≤ now) :
    Sound { w with clock := now } := by
  have floors : w.floor ≤ w.engine.settings.window.floor now := Window.floor_mono _ later
  have cursors : ∀ c, w.engine.series.cursor = some c →
      ∃ c', w.engine.series.cursor = some c' ∧ c ≤ c' := fun c hc => ⟨c, hc, UInt64.le_refl c⟩
  refine ⟨h.forward, h.archived, ?_, ?_, ?_⟩
  · obtain ⟨floor, le, covers⟩ := h.covers
    exact ⟨floor, UInt64.le_trans le floors, covers⟩
  · exact fun t ht => (h.polls t ht).later floors cursors
  · exact fun start hs => (h.starts start hs).later floors cursors

theorem Sound.poll (h : w.Sound) :
    Sound { w with
      engine := (w.engine.issue w.clock).value.1
      polls := w.polls ++ [(w.engine.issue w.clock).value.2] } := by
  refine ⟨h.forward, ⟨h.archived.distinct, h.archived.chart, h.archived.cursor, h.archived.finite,
    h.archived.kept⟩, h.covers, fun t ht => ?_, h.starts⟩
  rcases List.mem_append.mp ht with ht | ht
  · exact h.polls t ht
  · obtain rfl := List.mem_singleton.mp ht
    exact Window.reaches_fetchStart _ _ _

theorem Sound.ask (h : w.Sound) :
    Sound { w with starts := w.starts ++ [w.engine.nextStart w.clock] } := by
  refine ⟨h.forward, h.archived, h.covers, h.polls, fun start hs => ?_⟩
  rcases List.mem_append.mp hs with hs | hs
  · exact h.starts start hs
  · obtain rfl := List.mem_singleton.mp hs
    exact Window.reaches_fetchStart _ _ _

/-- An engine that differs only in its tickets and its report. -/
theorem Sound.informed (h : w.Sound) (info : Option DeviceInfo) :
    Sound { w with engine := { w.engine with awaited := none, info } } :=
  ⟨h.forward, ⟨h.archived.distinct, h.archived.chart, h.archived.cursor, h.archived.finite,
    h.archived.kept⟩, h.covers, h.polls, h.starts⟩

theorem Sound.restart (h : w.Sound) {e : Engine}
    (restored : (Engine.restore w.engine.store w.engine.settings).value = .ok e) :
    Sound { recorded := w.recorded, clock := w.clock, engine := e } := by
  obtain ⟨archived, times, cursor⟩ := h.archived.restore restored
  obtain ⟨-, rfl⟩ := Engine.restore_eq_ok restored
  obtain ⟨floor, le, covers⟩ := h.covers
  -- The requests are forgotten, so nothing has to reach the cursor that was loaded.
  refine ⟨h.forward, archived, ⟨floor, le, ?_, ?_⟩, fun t ht => ?_, fun start hs => ?_⟩
  · rw [times, cursor]
    exact covers.times
  · rw [cursor]
    exact covers.cursor
  · exact absurd ht (by simp)
  · exact absurd hs (by simp)

theorem Sound.covers_absorb (h : w.Sound) (reaches : Reaches start w.floor w.engine.series.cursor)
    (answers : b.Answers w.recorded start) (filled : b.isEmpty = false) :
    (w.engine.series.absorb w.engine.settings.window b w.clock).1.Covers w.recorded w.floor ∧
      ∃ resume, (w.engine.series.absorb w.engine.settings.window b w.clock).1.cursor = some resume ∧
        ∀ t, w.engine.series.cursor = some t ∨ t ∈ b.samples.map (·.time) → t ≤ resume := by
  obtain ⟨floor, le, covers⟩ := h.covers
  exact covers.absorb h.forward le reaches answers filled

theorem Sound.absorb (h : w.Sound) (reaches : Reaches start w.floor w.engine.series.cursor)
    (answers : b.Answers w.recorded start) :
    Sound { w with engine := (w.engine.absorb b w.clock).value.1 } := by
  rcases w.engine.absorb_cases b w.clock with ⟨-, eq⟩ | ⟨_, -, -, eq⟩ | ⟨taken, eq⟩
  · rw [eq]
    exact h
  · rw [eq]
    exact h
  · -- The cursor only moves forward, so what is still out goes on reaching it.
    rw [eq]
    have filled : b.isEmpty = false := (Batch.mergeable_iff.mp taken).1
    obtain ⟨covers, resume, cursor, further⟩ := h.covers_absorb reaches answers filled
    have cursors : ∀ c, w.engine.series.cursor = some c → ∃ c',
        (w.engine.series.absorb w.engine.settings.window b w.clock).1.cursor = some c' ∧ c ≤ c' :=
      fun c hc => ⟨resume, cursor, further c (.inl hc)⟩
    obtain ⟨floor, -, before⟩ := h.covers
    have finite := Series.finite_absorb h.archived.finite answers.sound (before.ordered h.forward)
      w.engine.settings.window w.clock
    refine ⟨h.forward, h.archived.saved (covers.ordered h.forward) finite cursor,
      ⟨w.floor, UInt64.le_refl _, covers⟩, ?_, ?_⟩
    · exact fun t ht => (h.polls t ht).later (UInt64.le_refl _) cursors
    · exact fun s hs => (h.starts s hs).later (UInt64.le_refl _) cursors

theorem Sound.complete (h : w.Sound) {t : Ticket} (known : t ∈ w.polls) {response : Response}
    (honest : w.Honest t.start response) :
    Sound { w with engine := (w.engine.complete t response w.clock).value.1 } := by
  rcases w.engine.complete_cases t response w.clock with
    ⟨-, eq⟩ | ⟨-, _, -, eq⟩ | ⟨-, report, -, -, eq⟩ | ⟨-, report, b, ok, history, rest⟩
  · rw [eq]
    exact h
  · rw [eq]
    exact h.informed _
  · rw [eq]
    exact h.informed _
  · have sound := (h.informed (some (Engine.shownInfo report))).absorb (h.polls t known)
      (honest report b ok history)
    rcases rest with ⟨_, -, eq⟩ | ⟨_, -, eq⟩
    · rw [eq]
      exact sound
    · rw [eq]
      exact sound

theorem Reached.sound {e : Engine} (reached : Reached e w) (archived : e.Archived)
    (empty : e.series = .empty) : w.Sound := by
  induction reached with
  | start forward clock =>
      refine ⟨forward, archived, ⟨_, UInt64.le_refl _, ?_⟩, fun t ht => ?_, fun s hs => ?_⟩
      · rw [empty]
        exact Series.covers_empty _ _
      · exact absurd ht (by simp)
      · exact absurd hs (by simp)
  | record _ newer ih => exact ih.record newer
  | pass _ later ih => exact ih.pass later
  | poll _ ih => exact ih.poll
  | answer _ known honest ih => exact ih.complete known honest
  | ask _ ih => exact ih.ask
  | backfill _ known answers ih => exact ih.absorb (ih.starts _ known) answers
  | restart _ restored ih => exact ih.restart restored

theorem Reached.settings {e : Engine} (reached : Reached e w) :
    w.engine.settings = e.settings := by
  induction reached with
  | start => rfl
  | record _ _ ih => exact ih
  | pass _ _ ih => exact ih
  | poll _ ih => exact ih
  | answer _ _ _ ih => exact (Engine.settings_complete _ _ _ _).trans ih
  | ask _ ih => exact ih
  | backfill _ _ _ ih => exact (Engine.settings_absorb _ _ _).trans ih
  | restart _ restored ih =>
      obtain ⟨-, rfl⟩ := Engine.restore_eq_ok restored
      exact ih

theorem Sound.covers_of_taken (h : w.Sound) {merged : MergeReport}
    (reaches : Reaches start w.floor w.engine.series.cursor) (answers : b.Answers w.recorded start)
    (taken : (w.engine.absorb b w.clock).value.2 = .ok merged) (filled : merged.skipped = false) :
    (w.engine.absorb b w.clock).value.1.series.Covers w.recorded w.floor ∧
      ∃ cursor, (w.engine.absorb b w.clock).value.1.series.cursor = some cursor ∧
        ∀ t, w.engine.series.cursor = some t ∨ t ∈ b.samples.map (·.time) → t ≤ cursor := by
  obtain ⟨carries, eq⟩ := Engine.absorb_of_taken taken filled
  rw [eq]
  exact h.covers_absorb reaches answers carries

theorem Imports.covers {e : Engine} (imported : w.Imports b e) (h : w.Sound) :
    e.series.Covers w.recorded w.floor ∧ ∃ cursor, e.series.cursor = some cursor ∧
      ∀ t, w.engine.series.cursor = some t ∨ t ∈ b.samples.map (·.time) → t ≤ cursor := by
  cases imported with
  | backfill known answers taken filled =>
      exact h.covers_of_taken (h.starts _ known) answers taken filled
  | @answer t known report _ history answers info merged taken filled =>
      rcases w.engine.complete_cases t (.ok report) w.clock with
        ⟨-, eq⟩ | ⟨-, _, -, eq⟩ | ⟨-, _, -, -, eq⟩ | ⟨-, report', b', ok, history', rest⟩
      · exact absurd (congrArg Prod.snd eq ▸ taken) (by simp)
      · exact absurd (congrArg Prod.snd eq ▸ taken) (by simp)
      · exact absurd (congrArg Prod.snd eq ▸ taken) (by simp)
      · -- The batch meets an engine that has already taken the report.
        obtain rfl := Except.ok.inj ok
        obtain rfl := Option.some.inj (history.symm.trans history')
        have sound := h.informed (some (Engine.shownInfo report))
        rcases rest with ⟨result, absorbed, eq⟩ | ⟨_, -, eq⟩
        · have same : result = merged := by
            rw [eq] at taken
            simpa using (Outcome.updated.inj taken).2
          rw [eq]
          exact sound.covers_of_taken (h.polls t known) answers (same ▸ absorbed) filled
        · exact absurd (congrArg Prod.snd eq ▸ taken) (by simp)

end World

namespace Engine

/-- **No sample is missed, and none is shown twice.** After every import that took samples in, the
labels of the series are exactly the recorded instants between the floor of the window and the
cursor, each once and oldest first, whatever happened before. The cursor is no earlier than it was
and than anything that came in. -/
theorem labels_after_import {store : Store} {settings : Settings} {start e : Engine} {w : World}
    {b : Batch} (fresh : store.Fresh settings.keys)
    (restored : (restore store settings).value = .ok start) (reached : World.Reached start w)
    (imported : w.Imports b e) :
    ∃ cursor, e.series.cursor = some cursor ∧
      e.series.times =
        w.recorded.filter (fun t => settings.window.floor w.clock ≤ t ∧ t ≤ cursor) ∧
      e.series.times.Pairwise (· < ·) ∧
      ∀ t, w.engine.series.cursor = some t ∨ t ∈ b.samples.map (·.time) → t ≤ cursor := by
  have archived := archived_of_fresh fresh restored
  obtain ⟨-, rfl⟩ := restore_eq_ok restored
  have sound := reached.sound archived (Archive.load_fresh fresh)
  obtain ⟨covers, cursor, eq, later⟩ := imported.covers sound
  refine ⟨cursor, eq, ?_, covers.ascending sound.forward, later⟩
  rw [covers.times, eq, World.floor, reached.settings]
  simp

/-- Two backfills of which the second is answered first. -/
def afterSecondAnswer : World where
  recorded := [10, 20, 30]
  clock := 100
  engine := (blank.absorb (.idle 0 [10, 20, 30]) 100).value.1
  starts := [0, 0]

theorem reached_afterSecondAnswer : World.Reached blank afterSecondAnswer := by
  have asked : World.Reached blank ⟨[10, 20], 100, blank, [], [0]⟩ :=
    (World.Reached.start (by decide) 100).ask
  have again : World.Reached blank ⟨[10, 20, 30], 100, blank, [], [0, 0]⟩ :=
    (asked.record (by simp)).ask
  have answers : Batch.Answers (.idle 0 [10, 20, 30]) [10, 20, 30] 0 :=
    ⟨by decide, 3, by decide⟩
  exact again.backfill List.mem_cons_self answers

/-- The answer to the first backfill comes last, and leaves nothing out of order. -/
theorem labels_after_late_answer :
    ∃ b e, afterSecondAnswer.Imports b e ∧ e.series.times = [10, 20, 30] := by
  have fresh : Store.Fresh { entries := [] } ({} : Settings).keys := ⟨⟨rfl, rfl⟩, ⟨rfl, rfl⟩, rfl, rfl⟩
  have answers : Batch.Answers (.idle 0 [10, 20]) [10, 20, 30] 0 :=
    ⟨by decide, 2, by decide⟩
  have imported : afterSecondAnswer.Imports (.idle 0 [10, 20])
      (afterSecondAnswer.engine.absorb (.idle 0 [10, 20]) 100).value.1 :=
    World.imports_of_backfill List.mem_cons_self answers rfl
  obtain ⟨cursor, known, times, -⟩ :=
    labels_after_import fresh restore_blank reached_afterSecondAnswer imported
  have newest : (afterSecondAnswer.engine.absorb (.idle 0 [10, 20]) 100).value.1.series.cursor =
      some 30 := by
    decide
  obtain rfl := Option.some.inj (newest.symm.trans known)
  exact ⟨_, _, imported, times.trans (by decide)⟩

end Engine
end MinerWatch
