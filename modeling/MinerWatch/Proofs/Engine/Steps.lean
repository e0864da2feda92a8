import Mathlib.Tactic.SplitIfs
import MinerWatch.Engine
import MinerWatch.Proofs.Series.Merge
/-!
What each step of an engine does to it, the notices left aside.

Proofs about engines go through these lemmas and open no step themselves.
`absorb_cases` and `complete_cases` list all that can happen to a batch and to an
answer; the step of a refused batch or of a stale answer is no step at all.
-/

namespace MinerWatch

theorem Settings.keys_ne {settings : Settings} (h : settings.fault? = none) :
    settings.keys.chart ≠ settings.keys.cursor := by
  intro same
  rw [fault?, if_pos same] at h
  split_ifs at h

namespace Engine

/-- The engine with a merged series, after the attempt to save it. -/
def saved (e : Engine) (series : Series) : Engine :=
  { e with series, store := (Archive.save e.settings.keys series e.store).value.1 }

def informed (e : Engine) (info : DeviceInfo) : Engine :=
  { e with awaited := none, info := some info }

/-- A report as the engine keeps it: without its history and in the units that are shown. -/
def shownInfo (report : DeviceInfo) : DeviceInfo :=
  { report with history := none }.inDisplayUnits

theorem value_persist (e : Engine) : e.persist.value = e.saved e.series := by
  simp only [persist, Logged.value_bind]
  split <;> rfl

theorem value_issue (e : Engine) (now : Millis) :
    (e.issue now).value =
      ({ e with issued := e.issued + 1, awaited := some (e.issued + 1) },
        ⟨e.issued + 1, e.nextStart now, now⟩) := rfl

theorem value_clear (e : Engine) :
    e.clear.value =
      { e with series := .empty, store := (Archive.clear e.settings.keys e.store).value } := rfl

theorem restore_eq_ok {store : Store} {settings : Settings} {e : Engine}
    (h : (restore store settings).value = .ok e) :
    settings.fault? = none ∧
      e = { settings, store, series := (Archive.load settings.keys store).value } := by
  unfold restore at h
  split at h
  · exact absurd h (by simp)
  · rename_i sound
    exact ⟨sound, (Except.ok.inj h).symm⟩

theorem restore_of_sound {settings : Settings} (h : settings.fault? = none) (store : Store) :
    (restore store settings).value =
      .ok { settings, store, series := (Archive.load settings.keys store).value } := by
  simp only [restore, h]
  rfl

/-- All that can happen to a batch: it is skipped, refused, or merged and saved. -/
theorem absorb_cases (e : Engine) (b : Batch) (now : Millis) :
    (b.isEmpty = true ∧ (e.absorb b now).value = (e, .ok ⟨0, 0, 0, e.series.cursor, true⟩)) ∨
    (∃ fault, b.isEmpty = false ∧ b.fault? = some fault ∧
      (e.absorb b now).value = (e, .error fault)) ∨
    (b.mergeable = true ∧
      (e.absorb b now).value =
        (e.saved (e.series.absorb e.settings.window b now).1,
          .ok (e.series.absorb e.settings.window b now).2)) := by
  rcases e.series.merge_cases e.settings.window b now with
    ⟨empty, eq⟩ | ⟨fault, filled, bad, eq⟩ | ⟨taken, eq⟩
  · left
    refine ⟨empty, ?_⟩
    simp only [absorb, Logged.value_bind, eq]
    rfl
  · right; left
    refine ⟨fault, filled, bad, ?_⟩
    simp only [absorb, Logged.value_bind, eq]
    rfl
  · right; right
    refine ⟨taken, ?_⟩
    simp only [absorb, Logged.value_bind, eq, Series.skipped_absorb, Bool.false_eq_true, if_false,
      value_persist, Logged.value_pure]
    rfl

theorem absorb_of_mergeable (e : Engine) {b : Batch} (h : b.mergeable = true) (now : Millis) :
    (e.absorb b now).value =
      (e.saved (e.series.absorb e.settings.window b now).1,
        .ok (e.series.absorb e.settings.window b now).2) := by
  obtain ⟨filled, sound⟩ := Batch.mergeable_iff.mp h
  rcases e.absorb_cases b now with ⟨empty, -⟩ | ⟨_, -, fault, -⟩ | ⟨-, eq⟩
  · exact absurd empty (by simp [filled])
  · exact absurd fault (by simp [sound])
  · exact eq

theorem settings_absorb (e : Engine) (b : Batch) (now : Millis) :
    (e.absorb b now).value.1.settings = e.settings := by
  rcases e.absorb_cases b now with ⟨-, eq⟩ | ⟨_, -, -, eq⟩ | ⟨-, eq⟩
  · rw [eq]
  · rw [eq]
  · rw [eq, saved]

/-- A batch that is reported as merged carries something, and the merged series is saved. -/
theorem absorb_of_taken {e : Engine} {b : Batch} {now : Millis} {merged : MergeReport}
    (taken : (e.absorb b now).value.2 = .ok merged) (filled : merged.skipped = false) :
    b.isEmpty = false ∧
      (e.absorb b now).value.1 = e.saved (e.series.absorb e.settings.window b now).1 := by
  rcases e.absorb_cases b now with ⟨-, eq⟩ | ⟨_, -, -, eq⟩ | ⟨mergeable, eq⟩
  · rw [eq] at taken
    obtain rfl := Except.ok.inj taken
    exact absurd filled (by simp)
  · rw [eq] at taken
    exact absurd taken (by simp)
  · rw [eq]
    exact ⟨(Batch.mergeable_iff.mp mergeable).1, rfl⟩

/-- All that can happen to an answer: it is stale, a failure, a report without history, or one
whose history is refused or absorbed. -/
theorem complete_cases (e : Engine) (t : Ticket) (response : Response) (now : Millis) :
    (e.isCurrent t = false ∧ (e.complete t response now).value = (e, .superseded t.id)) ∨
    (e.isCurrent t = true ∧ ∃ fault, response = .error fault ∧
      (e.complete t response now).value = ({ e with awaited := none }, .failed fault)) ∨
    (e.isCurrent t = true ∧ ∃ report, response = .ok report ∧ report.history = none ∧
      (e.complete t response now).value =
        (e.informed (shownInfo report), .updated (shownInfo report) none)) ∨
    (e.isCurrent t = true ∧ ∃ report batch, response = .ok report ∧ report.history = some batch ∧
      ((∃ merged, ((e.informed (shownInfo report)).absorb batch now).value.2 = .ok merged ∧
          (e.complete t response now).value =
            (((e.informed (shownInfo report)).absorb batch now).value.1,
              .updated (shownInfo report) (some merged))) ∨
        (∃ fault, ((e.informed (shownInfo report)).absorb batch now).value.2 = .error fault ∧
          (e.complete t response now).value =
            (((e.informed (shownInfo report)).absorb batch now).value.1,
              .rejected (shownInfo report) fault)))) := by
  cases current : e.isCurrent t with
  | false =>
      left
      exact ⟨rfl, by simp only [complete, current]; rfl⟩
  | true =>
      right
      cases response with
      | error fault =>
          left
          exact ⟨rfl, fault, rfl, by simp only [complete, current]; rfl⟩
      | ok report =>
          right
          cases history : report.history with
          | none =>
              left
              refine ⟨rfl, report, rfl, history, ?_⟩
              simp only [complete, current, Bool.not_true, Bool.false_eq_true, if_false, history]
              rfl
          | some batch =>
              right
              refine ⟨rfl, report, batch, rfl, history, ?_⟩
              simp only [complete, current, Bool.not_true, Bool.false_eq_true, if_false, history,
                informed, shownInfo, Logged.value_bind]
              cases result : (Engine.absorb _ batch now).value.2 with
              | ok merged => exact .inl ⟨merged, rfl, rfl⟩
              | error fault => exact .inr ⟨fault, rfl, rfl⟩

theorem complete_of_history {e : Engine} {t : Ticket} (current : e.isCurrent t = true)
    {report : DeviceInfo} {b : Batch} (history : report.history = some b) (now : Millis)
    {merged : MergeReport}
    (taken : ((e.informed (shownInfo report)).absorb b now).value.2 = .ok merged) :
    (e.complete t (.ok report) now).value =
      (((e.informed (shownInfo report)).absorb b now).value.1,
        .updated (shownInfo report) (some merged)) := by
  rcases e.complete_cases t (.ok report) now with
    ⟨stale, -⟩ | ⟨-, _, failed, -⟩ | ⟨-, _, ok, none, -⟩ | ⟨-, _, _, ok, some, rest⟩
  · exact absurd current (by simp [stale])
  · exact absurd failed (by simp)
  · obtain rfl := Except.ok.inj ok
    exact absurd (history.symm.trans none) (by simp)
  · obtain rfl := Except.ok.inj ok
    obtain rfl := Option.some.inj (history.symm.trans some)
    rcases rest with ⟨_, result, eq⟩ | ⟨_, result, -⟩
    · obtain rfl := Except.ok.inj (taken.symm.trans result)
      exact eq
    · exact absurd (taken.symm.trans result) (by simp)

theorem settings_complete (e : Engine) (t : Ticket) (response : Response) (now : Millis) :
    (e.complete t response now).value.1.settings = e.settings := by
  rcases e.complete_cases t response now with
    ⟨-, eq⟩ | ⟨-, _, -, eq⟩ | ⟨-, _, -, -, eq⟩ | ⟨-, report, b, -, -, rest⟩
  · rw [eq]
  · rw [eq]
  · rw [eq]
    rfl
  · have settings := settings_absorb (e.informed (shownInfo report)) b now
    rcases rest with ⟨_, -, eq⟩ | ⟨_, -, eq⟩ <;> rw [eq] <;> exact settings

end Engine
end MinerWatch
