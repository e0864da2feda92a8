import MinerWatch.Proofs.Engine.Clearing
/-!
The operations on an engine as data, so that a run is a list of them.

To the series it only matters which batch an operation merges, if it merges any. `merged?` reads that
off what the operation reports; `perform_cases` says what the series is then, and is the one place
that looks into the operations.
-/

namespace MinerWatch.Engine

/-- What can be done with an engine, and what can happen to its store in between. -/
inductive Operation where
  | issue (now : Millis)
  | complete (t : Ticket) (response : Response) (now : Millis)
  | absorb (b : Batch) (now : Millis)
  | clear
  /-- Somebody else changes the entries, or the host changes its mind about what it refuses. -/
  | host (store : Store)

/-- The operation is one of the engine, and not something that happens to its store. -/
def Operation.own : Operation → Bool
  | .host _ => false
  | _ => true

/-- The engine after an operation. -/
def perform (e : Engine) : Operation → Engine
  | .issue now => (e.issue now).value.1
  | .complete t response now => (e.complete t response now).value.1
  | .absorb b now => (e.absorb b now).value.1
  | .clear => e.clear.value
  | .host store => { e with store }

/-- The engine after a run of operations. -/
def after (e : Engine) (ops : List Operation) : Engine :=
  ops.foldl perform e

/-- The batch that an operation reports as merged, and the instant at which it merged it. -/
def merged? (e : Engine) : Operation → Option (Batch × Millis)
  | .complete t (.ok report) now =>
      if (e.complete t (.ok report) now).value.2.merges then report.history.map (·, now) else none
  | .absorb b now => if mergesBatch (e.absorb b now).value.2 then some (b, now) else none
  | _ => none

@[simp] theorem after_nil (e : Engine) : e.after [] = e := rfl

@[simp] theorem after_cons (e : Engine) (op : Operation) (ops : List Operation) :
    e.after (op :: ops) = (e.perform op).after ops := rfl

theorem mergeable_of_merges {e : Engine} {b : Batch} {now : Millis}
    (h : mergesBatch (e.absorb b now).value.2 = true) : b.mergeable = true := by
  rcases e.absorb_cases b now with ⟨-, eq⟩ | ⟨_, -, -, eq⟩ | ⟨taken, -⟩
  · rw [eq] at h
    exact absurd h (by simp [mergesBatch])
  · rw [eq] at h
    exact absurd h (by simp [mergesBatch])
  · exact taken

/-- An answer whose history was merged is a report that had one, and it was merged and saved as a
backfill is. -/
theorem complete_of_merges {e : Engine} {t : Ticket} {response : Response} {now : Millis}
    (h : (e.complete t response now).value.2.merges = true) :
    ∃ report b, response = .ok report ∧ report.history = some b ∧ b.mergeable = true ∧
      (e.complete t response now).value =
        ((e.informed (shownInfo report)).saved (e.series.absorb e.settings.window b now).1,
          .updated (shownInfo report) (some (e.series.absorb e.settings.window b now).2)) := by
  rcases e.complete_cases t response now with
    ⟨-, eq⟩ | ⟨-, _, -, eq⟩ | ⟨-, _, -, -, eq⟩ | ⟨-, report, b, ok, history, rest⟩
  · rw [eq] at h
    exact absurd h (by simp [Outcome.merges])
  · rw [eq] at h
    exact absurd h (by simp [Outcome.merges])
  · rw [eq] at h
    exact absurd h (by simp [Outcome.merges])
  · rcases rest with ⟨merged, result, eq⟩ | ⟨fault, -, eq⟩
    · have taken : mergesBatch ((e.informed (shownInfo report)).absorb b now).value.2 = true := by
        rw [eq] at h
        rw [result]
        exact h
      have mergeable := mergeable_of_merges taken
      have absorbed := (e.informed (shownInfo report)).absorb_of_mergeable mergeable now
      rw [absorbed] at result eq
      obtain rfl := Except.ok.inj result
      exact ⟨report, b, ok, history, mergeable, eq⟩
    · rw [eq] at h
      exact absurd h (by simp [Outcome.merges])

/-- All that an operation can do to the series: it clears it, leaves it alone, or merges a batch. -/
theorem perform_cases (e : Engine) (op : Operation) :
    (op = .clear ∧ e.merged? op = none ∧ (e.perform op).series = .empty) ∨
    (op ≠ .clear ∧ e.merged? op = none ∧ (e.perform op).series = e.series) ∨
    (op ≠ .clear ∧ ∃ b now, e.merged? op = some (b, now) ∧ b.mergeable = true ∧
      (e.perform op).series = (e.series.absorb e.settings.window b now).1) := by
  cases op with
  | issue now => exact .inr (.inl ⟨by simp, rfl, rfl⟩)
  | clear => exact .inl ⟨rfl, rfl, rfl⟩
  | host store => exact .inr (.inl ⟨by simp, rfl, rfl⟩)
  | absorb b now =>
      right
      cases merges : mergesBatch (e.absorb b now).value.2 with
      | false =>
          have same := absorb_of_not_merges merges
          exact .inl ⟨by simp, by simp [merged?, merges], by rw [perform, same]⟩
      | true =>
          have mergeable := mergeable_of_merges merges
          refine .inr ⟨by simp, b, now, by simp [merged?, merges], mergeable, ?_⟩
          rw [perform, e.absorb_of_mergeable mergeable]
          rfl
  | complete t response now =>
      right
      cases merges : (e.complete t response now).value.2.merges with
      | false =>
          have same := (complete_of_not_merges merges).1
          refine .inl ⟨by simp, ?_, same⟩
          cases response with
          | error fault => rfl
          | ok report => simp [merged?, merges]
      | true =>
          obtain ⟨report, b, rfl, history, mergeable, eq⟩ := complete_of_merges merges
          refine .inr ⟨by simp, b, now, by simp [merged?, merges, history], mergeable, ?_⟩
          rw [perform, eq]
          rfl

theorem series_of_merged {e : Engine} {op : Operation} {b : Batch} {now : Millis}
    (h : e.merged? op = some (b, now)) :
    b.mergeable = true ∧
      (e.perform op).series = (e.series.absorb e.settings.window b now).1 := by
  rcases e.perform_cases op with ⟨-, none, -⟩ | ⟨-, none, -⟩ | ⟨-, b', now', some, taken, series⟩
  · exact absurd (h.symm.trans none) (by simp)
  · exact absurd (h.symm.trans none) (by simp)
  · obtain ⟨rfl, rfl⟩ := Prod.mk.inj (Option.some.inj (h.symm.trans some))
    exact ⟨taken, series⟩

theorem series_of_not_merged {e : Engine} {op : Operation} (kept : op ≠ .clear)
    (h : e.merged? op = none) : (e.perform op).series = e.series := by
  rcases e.perform_cases op with ⟨clear, -⟩ | ⟨-, -, same⟩ | ⟨-, _, _, some, -⟩
  · exact absurd clear kept
  · exact same
  · exact absurd (h.symm.trans some) (by simp)

/-- What an operation merges is saved. -/
theorem merges_of_merged {e : Engine} {op : Operation} {b : Batch} {now : Millis}
    (h : e.merged? op = some (b, now)) : e.Merges (e.perform op) := by
  cases op with
  | issue now => exact absurd h (by simp [merged?])
  | clear => exact absurd h (by simp [merged?])
  | host store => exact absurd h (by simp [merged?])
  | absorb b' now' =>
      simp only [merged?] at h
      split at h
      · rename_i merges
        have mergeable := mergeable_of_merges merges
        rw [perform, e.absorb_of_mergeable mergeable]
        exact ⟨⟨b', now', mergeable, rfl⟩, rfl⟩
      · exact absurd h (by simp)
  | complete t response now' =>
      cases response with
      | error fault => exact absurd h (by simp [merged?])
      | ok report =>
          simp only [merged?] at h
          split at h
          · rename_i merges
            obtain ⟨_, b', -, -, mergeable, eq⟩ := complete_of_merges merges
            rw [perform, eq]
            exact ⟨⟨b', now', mergeable, rfl⟩, rfl⟩
          · exact absurd h (by simp)

/-- But for clearing, what an engine does is a step of its course. -/
theorem step_perform {mood : Guard → Prop} {e : Engine} {op : Operation} (own : op.own = true)
    (kept : op ≠ .clear) : Step mood e (e.perform op) := by
  cases op with
  | issue now => exact .issue now
  | clear => exact absurd rfl kept
  | host store => exact absurd own (by simp [Operation.own])
  | absorb b now => exact .absorb b now
  | complete t response now => exact .complete t response now

@[simp] theorem settings_perform (e : Engine) (op : Operation) :
    (e.perform op).settings = e.settings := by
  cases op with
  | issue now => rfl
  | clear => rfl
  | host store => rfl
  | absorb b now => exact e.settings_absorb b now
  | complete t response now => exact e.settings_complete t response now

@[simp] theorem settings_after (e : Engine) (ops : List Operation) :
    (e.after ops).settings = e.settings := by
  induction ops generalizing e with
  | nil => rfl
  | cons op ops ih => rw [after_cons, ih, settings_perform]

end MinerWatch.Engine
