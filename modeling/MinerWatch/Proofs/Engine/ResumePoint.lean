import Mathlib.Order.Bounds.Defs
import MinerWatch.Proofs.Engine.Operation
import MinerWatch.Proofs.Series.Coverage
/-!
The cursor as the point from which history is asked for.

Appending moves the cursor to the last sample that came in, which may lie before a cursor that was
stored, and trimming moves it back to the oldest sample left. A merge undoes both: its cursor is the
greatest instant of all that it knew, got and kept (`isGreatest_cursor_absorb`). So along a run
without clears the cursor only moves forward, and requests start behind it.
-/

namespace MinerWatch

namespace Series

/-- Where appending and trimming leave the cursor: at the oldest sample left, at one that came in,
or where it was. -/
theorem cursor_trimmed_cases {s : Series} {batch : List Sample} {cutoff c : Millis}
    (h : ((s.append batch).1.trimBefore cutoff).1.cursor = some c) :
    s.cursor = some c ∨ c ∈ batch.map (·.time) ∨
      ((s.append batch).1.trimBefore cutoff).1.oldest? = some c := by
  rcases Option.or_eq_some_iff.mp h with oldest | ⟨-, grown⟩
  · exact .inr (.inr oldest)
  · rcases Option.or_eq_some_iff.mp grown with last | ⟨-, untouched⟩
    · obtain ⟨p, hp, rfl⟩ := Option.map_eq_some_iff.mp last
      have offered := (newerThan_sublist _ _).subset (List.mem_of_getLast? hp)
      exact .inr (.inl (List.mem_map_of_mem offered))
    · exact .inl untouched

theorem cursor_of_oldest {s : Series} {cutoff t : Millis}
    (h : (s.trimBefore cutoff).1.oldest? = some t) : (s.trimBefore cutoff).1.cursor = some t :=
  Option.or_eq_some_iff.mpr (.inl h)

/-- Raising the cursor takes it to the later of where it was and where it should be at least. -/
theorem isGreatest_cursor_raiseCursor (s : Series) (t : Millis) :
    ∃ c, (s.raiseCursor t).cursor = some c ∧ IsGreatest {u | s.cursor = some u ∨ u = t} c := by
  cases known : s.cursor with
  | none =>
      refine ⟨t, by simp [raiseCursor, known], .inr rfl, ?_⟩
      rintro u (hu | rfl)
      · exact absurd hu (by simp)
      · exact UInt64.le_refl u
  | some c =>
      obtain ⟨left, right⟩ := (Std.LawfulOrderSup.max_le_iff c t (max c t)).mp (UInt64.le_refl _)
      refine ⟨max c t, by simp [raiseCursor, known], ?_, ?_⟩
      · rcases Std.MaxEqOr.max_eq_or c t with eq | eq
        · exact .inl (congrArg some eq.symm)
        · exact .inr eq
      · rintro u (hu | rfl)
        · exact Option.some.inj hu ▸ left
        · exact right

/-- **A merge resumes at the greatest instant known**: the cursor from before, the newest of the
batch, or the oldest sample left. -/
theorem isGreatest_cursor_absorb (s : Series) {b : Batch} (h : b.mergeable = true) (w : Window)
    (now : Millis) :
    ∃ c, (s.absorb w b now).1.cursor = some c ∧
      IsGreatest {t | s.cursor = some t ∨ t ∈ b.samples.map (·.time) ∨
        (s.absorb w b now).1.oldest? = some t} c := by
  obtain ⟨filled, sound⟩ := Batch.mergeable_iff.mp h
  obtain ⟨newest, eq, carried, bound⟩ := Batch.exists_newest? sound filled
  obtain ⟨resume, later, origin⟩ := exists_laterOf s.cursor eq
  have raised : (s.absorb w b now).1 =
      (((s.append b.samples).1.trimBefore (w.floor now)).1).raiseCursor resume := by
    simp only [absorb, later]
  obtain ⟨c, known, from_, most⟩ := isGreatest_cursor_raiseCursor
    (((s.append b.samples).1.trimBefore (w.floor now)).1) resume
  have atLeast : resume ≤ c := most (.inr rfl)
  rw [raised]
  refine ⟨c, known, ?_, ?_⟩
  · rcases from_ with trimmed | rfl
    · exact cursor_trimmed_cases trimmed
    · rcases origin with before | new
      · exact .inl before
      · obtain rfl := Option.some.inj (eq.symm.trans new)
        exact .inr (.inl carried)
  · rintro t (before | new | oldest)
    · exact UInt64.le_trans (le_of_laterOf later (.inl before)) atLeast
    · exact UInt64.le_trans (bound t new) (UInt64.le_trans (le_of_laterOf later (.inr eq)) atLeast)
    · exact most (.inl (cursor_of_oldest oldest))

end Series

namespace Window

/-- Requests start later and later when neither cursor nor clock goes back. -/
theorem fetchStart_mono (w : Window) {s s' : Series} (cursors : s.CursorLe s') {now now' : Millis}
    (clock : now ≤ now') : w.fetchStart s.cursor now ≤ w.fetchStart s'.cursor now' := by
  have floors := w.floor_mono clock
  have max_le {a b c : Millis} := Std.LawfulOrderSup.max_le_iff a b c
  cases known : s.cursor with
  | none =>
      cases s'.cursor with
      | none => exact floors
      | some c' => exact UInt64.le_trans floors (max_le.mp (UInt64.le_refl _)).2
  | some c =>
      obtain ⟨c', known', le⟩ := cursors c known
      rw [known']
      obtain ⟨left, right⟩ := max_le.mp (UInt64.le_refl (max (Millis.next c') (w.floor now')))
      exact max_le.mpr ⟨UInt64.le_trans (Millis.next_mono le) left, UInt64.le_trans floors right⟩

theorem next_le_fetchStart (w : Window) (c now : Millis) :
    Millis.next c ≤ w.fetchStart (some c) now :=
  ((Std.LawfulOrderSup.max_le_iff _ _ _).mp (UInt64.le_refl _)).1

end Window

namespace Millis

theorem next_last : next last = last := by decide

theorem le_last (t : Millis) : t ≤ last := by
  rw [UInt64.le_iff_toNat_le, toNat_last]
  exact Nat.le_sub_one_of_lt t.toNat_lt

/-- What is no later than an instant lies before the next one, if there is one. -/
theorem lt_next_of_le {t c : Millis} (h : t ≤ c) (more : c ≠ last) : t < next c := by
  have below : c.toNat ≠ UInt64.size - 1 := fun eq => more (UInt64.toNat_inj.mp (eq.trans toNat_last.symm))
  have word : c.toNat < UInt64.size := c.toNat_lt
  rw [UInt64.le_iff_toNat_le] at h
  rw [UInt64.lt_iff_toNat_lt, toNat_next]
  omega

end Millis

namespace Engine

variable {e : Engine} {op : Operation} {ops : List Operation} {b : Batch} {now : Millis}

theorem cursorLe_perform (kept : op ≠ .clear) : e.series.CursorLe (e.perform op).series := by
  cases merged : e.merged? op with
  | none =>
      rw [series_of_not_merged kept merged]
      exact .refl _
  | some done =>
      obtain ⟨taken, series⟩ := series_of_merged merged
      obtain ⟨_, -, further⟩ := e.series.exists_cursor_absorb taken e.settings.window done.2
      rw [series]
      exact further

/-- Along a run without clears the cursor only moves forward. -/
theorem cursorLe_after (kept : .clear ∉ ops) : e.series.CursorLe (e.after ops).series := by
  induction ops generalizing e with
  | nil => exact .refl _
  | cons op ops ih =>
      obtain ⟨first, rest⟩ := List.ne_and_not_mem_of_not_mem_cons kept
      exact (cursorLe_perform (Ne.symm first)).trans (ih rest)

theorem isGreatest_cursor_of_merged (merged : e.merged? op = some (b, now)) :
    ∃ c, (e.perform op).series.cursor = some c ∧
      IsGreatest {t | e.series.cursor = some t ∨ t ∈ b.samples.map (·.time) ∨
        (e.perform op).series.oldest? = some t} c := by
  obtain ⟨taken, series⟩ := series_of_merged merged
  rw [series]
  exact e.series.isGreatest_cursor_absorb taken e.settings.window now

/-- What a batch brought lies before every later request, as long as there is a later instant. -/
theorem lt_start_of_merged (merged : e.merged? op = some (b, now)) (kept : .clear ∉ ops)
    (later : Millis) :
    let e' := (e.perform op).after ops
    (∀ t ∈ b.samples.map (·.time), t < (e'.issue later).value.2.start) ∨
      (e'.series.cursor = some Millis.last ∧ (e'.issue later).value.2.start = Millis.last) := by
  obtain ⟨c, known, -, most⟩ := isGreatest_cursor_of_merged merged
  obtain ⟨c', known', le⟩ := cursorLe_after kept c known
  have start := Window.next_le_fetchStart ((e.perform op).after ops).settings.window c' later
  rw [← known'] at start
  by_cases top : c' = Millis.last
  · rw [top, Millis.next_last] at start
    exact .inr ⟨top ▸ known', UInt64.le_antisymm (Millis.le_last _) start⟩
  · left
    intro t carried
    have before := UInt64.le_trans (most (.inr (.inl carried))) le
    exact UInt64.lt_of_lt_of_le (Millis.lt_next_of_le before top) start

/-- **The resume point never goes back**, whatever state an engine is in and whatever its clock says.
A merge takes the cursor to the greatest of what it was, the newest of the batch and the oldest sample
left; any other operation but a clear leaves it alone. So between two clears the cursor never
decreases, each ticket starts after all that was merged before it, unless no later instant is left,
and if the clock does not go back either, a later ticket does not start earlier. -/
theorem resume_point_never_goes_back (e : Engine) :
    (∀ op b now, e.merged? op = some (b, now) →
      ∃ c, (e.perform op).series.cursor = some c ∧
        IsGreatest {t | e.series.cursor = some t ∨ t ∈ b.samples.map (·.time) ∨
          (e.perform op).series.oldest? = some t} c) ∧
    (∀ op, op ≠ .clear → e.merged? op = none →
      (e.perform op).series.cursor = e.series.cursor) ∧
    ∀ ops : List Operation, .clear ∉ ops →
      e.series.CursorLe (e.after ops).series ∧
      (∀ op b now later, e.merged? op = some (b, now) →
        let e' := (e.perform op).after ops
        (∀ t ∈ b.samples.map (·.time), t < (e'.issue later).value.2.start) ∨
          (e'.series.cursor = some Millis.last ∧ (e'.issue later).value.2.start = Millis.last)) ∧
      ∀ now later, now ≤ later →
        (e.issue now).value.2.start ≤
          (((e.perform (.issue now)).after ops).issue later).value.2.start := by
  refine ⟨fun op b now merged => isGreatest_cursor_of_merged merged, fun op kept nothing => ?_,
    fun ops kept => ⟨cursorLe_after kept, ?_, fun now later clock => ?_⟩⟩
  · rw [series_of_not_merged kept nothing]
  · exact fun op b now later merged => lt_start_of_merged merged kept later
  · have cursors : e.series.CursorLe ((e.perform (.issue now)).after ops).series :=
      cursorLe_after (e := e.perform (.issue now)) kept
    have starts := e.settings.window.fetchStart_mono cursors clock
    simpa only [value_issue, nextStart, settings_after, settings_perform] using starts

/-- A stored cursor is ahead of the samples, and so of what a late batch brings. -/
def ahead : Engine where
  settings := {}
  store := { entries := [] }
  series := ⟨[⟨10, 0.0, 0.0, 0.0⟩], some 50⟩

/-- The clock goes back, a batch is empty, an answer is stale: the next ticket starts behind the cursor
all the same. -/
theorem start_after_late_batch :
    let late := Operation.absorb (.idle 0 [30, 20, 40]) 100
    let others := [.issue 90, .absorb .empty 80, .complete ⟨7, 0, 0⟩ (.ok {}) 70]
    let e := (ahead.perform late).after others
    e.series.times = [10, 30, 40] ∧ e.series.cursor = some 50 ∧
      ∀ t ∈ (Batch.idle 0 [30, 20, 40]).samples.map (·.time), t < (e.issue 60).value.2.start := by
  have merged : ahead.merged? (.absorb (.idle 0 [30, 20, 40]) 100) =
      some (.idle 0 [30, 20, 40], 100) := by
    have reported : mergesBatch (ahead.absorb (.idle 0 [30, 20, 40]) 100).value.2 = true := by
      decide
    simp [merged?, reported]
  have cursor : ((ahead.perform (.absorb (.idle 0 [30, 20, 40]) 100)).after
      [.issue 90, .absorb .empty 80, .complete ⟨7, 0, 0⟩ (.ok {}) 70]).series.cursor = some 50 := by
    decide
  have laws := (resume_point_never_goes_back ahead).2.2
    [.issue 90, .absorb .empty 80, .complete ⟨7, 0, 0⟩ (.ok {}) 70] (by simp)
  refine ⟨by decide, cursor, ?_⟩
  rcases laws.2.1 _ _ _ 60 merged with starts | ⟨last, -⟩
  · exact starts
  · exact absurd (cursor.symm.trans last) (by decide)

end Engine
end MinerWatch
