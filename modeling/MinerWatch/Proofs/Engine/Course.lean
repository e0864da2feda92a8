import MinerWatch.Proofs.Engine.Steps
import MinerWatch.Proofs.Series.Archive
/-!
The course of an engine, with the series that it went through.

For the archive it makes no difference whether a series came from a poll or a backfill: a step
either leaves series and entries alone or merges a batch and tries to save (`Step.cases`).
A `Course` collects the series since the engine was restored or last cleared, under a host
that may change its mind at any time but keeps to what it grants.
-/

namespace MinerWatch

/-! ### The cursor of a series that is merged into -/

namespace Series

/-- The cursor of one series is no later than that of another. -/
def CursorLe (s s' : Series) : Prop :=
  ∀ c, s.cursor = some c → ∃ c', s'.cursor = some c' ∧ c ≤ c'

theorem CursorLe.refl (s : Series) : s.CursorLe s :=
  fun c hc => ⟨c, hc, UInt64.le_refl c⟩

theorem CursorLe.trans {s s' s'' : Series} (h : s.CursorLe s') (h' : s'.CursorLe s'') :
    s.CursorLe s'' := by
  intro c hc
  obtain ⟨c', hc', le⟩ := h c hc
  obtain ⟨c'', hc'', le'⟩ := h' c' hc'
  exact ⟨c'', hc'', UInt64.le_trans le le'⟩

theorem exists_cursor_raiseCursor (s : Series) (t : Millis) :
    ∃ c, (s.raiseCursor t).cursor = some c ∧ t ≤ c := by
  cases known : s.cursor with
  | none => exact ⟨t, by simp [raiseCursor, known], UInt64.le_refl t⟩
  | some c =>
      have max := (Std.LawfulOrderSup.max_le_iff c t (max c t)).mp (UInt64.le_refl _)
      exact ⟨_, by simp [raiseCursor, known], max.2⟩

/-- Whatever appending and trimming do to the cursor, a merge leaves one no earlier than before. -/
theorem exists_cursor_absorb (s : Series) {b : Batch} (h : b.mergeable = true) (w : Window)
    (now : Millis) : ∃ c, (s.absorb w b now).1.cursor = some c ∧ s.CursorLe (s.absorb w b now).1 := by
  obtain ⟨filled, sound⟩ := Batch.mergeable_iff.mp h
  obtain ⟨newest, eq, -⟩ := Batch.exists_newest? sound filled
  obtain ⟨resume, later, -⟩ := exists_laterOf s.cursor eq
  have raised : (s.absorb w b now).1 =
      (((s.append b.samples).1.trimBefore (w.floor now)).1).raiseCursor resume := by
    simp only [absorb, later]
  obtain ⟨c, known, le⟩ := exists_cursor_raiseCursor
    (((s.append b.samples).1.trimBefore (w.floor now)).1) resume
  rw [raised]
  exact ⟨c, known, fun c' hc' => ⟨c, known, UInt64.le_trans (le_of_laterOf later (.inl hc')) le⟩⟩

end Series

namespace Engine

variable {e e' : Engine} {mood : Guard → Prop}

/-! ### What a step does to series and store -/

/-- A step of an engine other than clearing it, under a host that stays in a mood. -/
inductive Step (mood : Guard → Prop) (e : Engine) : Engine → Prop where
  | issue (now : Millis) : Step mood e (e.issue now).value.1
  | complete (t : Ticket) (response : Response) (now : Millis) :
      Step mood e (e.complete t response now).value.1
  | absorb (b : Batch) (now : Millis) : Step mood e (e.absorb b now).value.1
  | host (guard : Guard) (granted : mood guard) :
      Step mood e { e with store := { e.store with guard } }

/-- Series and entries stay as they are. -/
structure Rests (mood : Guard → Prop) (e e' : Engine) : Prop where
  series : e'.series = e.series
  entries : e'.store.entries = e.store.entries
  guard : e'.store.guard = e.store.guard ∨ mood e'.store.guard

/-- A batch is merged, and the host is asked to save the result. -/
structure Merges (e e' : Engine) : Prop where
  merged : ∃ b now, b.mergeable = true ∧ e'.series = (e.series.absorb e.settings.window b now).1
  store : e'.store = (Archive.save e.settings.keys e'.series e.store).value.1

theorem absorb_archive (mood : Guard → Prop) (e : Engine) (b : Batch) (now : Millis) :
    Rests mood e (e.absorb b now).value.1 ∨ e.Merges (e.absorb b now).value.1 := by
  rcases e.absorb_cases b now with ⟨-, eq⟩ | ⟨_, -, -, eq⟩ | ⟨taken, eq⟩
  · rw [eq]
    exact .inl ⟨rfl, rfl, .inl rfl⟩
  · rw [eq]
    exact .inl ⟨rfl, rfl, .inl rfl⟩
  · rw [eq]
    exact .inr ⟨⟨b, now, taken, rfl⟩, rfl⟩

/-- All that a step can do to the archive. -/
theorem Step.cases (h : Step mood e e') : Rests mood e e' ∨ e.Merges e' := by
  cases h with
  | issue now => exact .inl ⟨rfl, rfl, .inl rfl⟩
  | host guard granted => exact .inl ⟨rfl, rfl, .inr granted⟩
  | absorb b now => exact e.absorb_archive mood b now
  | complete t response now =>
      rcases e.complete_cases t response now with
        ⟨-, eq⟩ | ⟨-, _, -, eq⟩ | ⟨-, _, -, -, eq⟩ | ⟨-, report, b, -, -, rest⟩
      · rw [eq]
        exact .inl ⟨rfl, rfl, .inl rfl⟩
      · rw [eq]
        exact .inl ⟨rfl, rfl, .inl rfl⟩
      · rw [eq]
        exact .inl ⟨rfl, rfl, .inl rfl⟩
      · -- The report is taken first, which touches neither series nor store.
        have informed : Rests mood e ((e.informed (shownInfo report)).absorb b now).value.1 ∨
            e.Merges ((e.informed (shownInfo report)).absorb b now).value.1 := by
          rcases (e.informed (shownInfo report)).absorb_archive mood b now with
            ⟨series, entries, guard⟩ | ⟨merged, store⟩
          · exact .inl ⟨series, entries, guard⟩
          · exact .inr ⟨merged, store⟩
        rcases rest with ⟨_, -, eq⟩ | ⟨_, -, eq⟩
        · rw [eq]
          exact informed
        · rw [eq]
          exact informed

theorem Step.settings (h : Step mood e e') : e'.settings = e.settings := by
  cases h with
  | issue now => rfl
  | host guard granted => rfl
  | absorb b now => exact e.settings_absorb b now
  | complete t response now => exact e.settings_complete t response now

theorem Merges.exists_cursor (m : e.Merges e') :
    ∃ c, e'.series.cursor = some c ∧ e.series.CursorLe e'.series := by
  obtain ⟨b, now, taken, eq⟩ := m.merged
  rw [eq]
  exact e.series.exists_cursor_absorb taken e.settings.window now

theorem Merges.storable (m : e.Merges e') (h : Archive.Storable e.series.samples) :
    Archive.Storable e'.series.samples := by
  obtain ⟨b, now, taken, eq⟩ := m.merged
  rw [eq]
  exact h.absorb (Batch.mergeable_iff.mp taken).2 _ _

theorem Merges.guard (m : e.Merges e') : e'.store.guard = e.store.guard := by
  obtain ⟨c, known, -⟩ := m.exists_cursor
  rw [m.store]
  rcases Archive.save_cases e.settings.keys known e.store with ⟨-, eq⟩ | ⟨-, eq⟩ | eq
  · rw [eq]
  · rw [eq]
    rfl
  · rw [eq]
    rfl

theorem Step.granted (h : Step mood e e') (before : mood e.store.guard) : mood e'.store.guard := by
  rcases h.cases with rests | merges
  · rcases rests.guard with same | granted
    · rw [same]
      exact before
    · exact granted
  · rw [merges.guard]
    exact before

/-! ### Runs -/

/-- The runs of an engine whose host stays in a mood, with the series it went through since it was
started or last cleared. -/
inductive Course (mood : Guard → Prop) (start : Engine) : Engine → List Series → Prop where
  | start (granted : mood start.store.guard) : Course mood start start [start.series]
  | step {e e' past} (course : Course mood start e past) (step : Step mood e e') :
      Course mood start e' (past ++ [e'.series])
  | clear {e past} (course : Course mood start e past) :
      Course mood start e.clear.value [e.clear.value.series]

variable {start : Engine} {past : List Series}

theorem Course.granted (course : Course mood start e past) : mood e.store.guard := by
  induction course with
  | start granted => exact granted
  | step _ step ih => exact step.granted ih
  | @clear e _ _ ih =>
      rw [value_clear, Archive.guard_clear]
      exact ih

theorem Course.granted_start (course : Course mood start e past) : mood start.store.guard := by
  induction course with
  | start granted => exact granted
  | step _ _ ih => exact ih
  | clear _ ih => exact ih

theorem Course.settings (course : Course mood start e past) : e.settings = start.settings := by
  induction course with
  | start _ => rfl
  | step _ step ih => exact step.settings.trans ih
  | clear _ ih => exact ih

end Engine
end MinerWatch
