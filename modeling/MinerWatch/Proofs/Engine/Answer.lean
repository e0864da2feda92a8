import MinerWatch.Proofs.Engine.Operation
/-!
What an answer changes, and what its outcome says of that.

The outcome is all that a caller sees of an answer, so it has to tell what became of the engine. A
report is taken whatever becomes of its history: `info_complete` says that the engine then knows what
the outcome shows, once in display units and without the history. The history changes something only if
the outcome reports a merge, and then it is merged and saved as any batch (`complete_of_merges`).
-/

namespace MinerWatch.Engine

variable {e : Engine} {t : Ticket} {response : Response} {now : Millis}

theorem info_absorb (e : Engine) (b : Batch) (now : Millis) :
    (e.absorb b now).value.1.info = e.info := by
  rcases e.absorb_cases b now with ⟨-, eq⟩ | ⟨_, -, -, eq⟩ | ⟨-, eq⟩
  · rw [eq]
  · rw [eq]
  · rw [eq]
    rfl

/-- Either no report is taken and the known one stays, or one is, and it is known and shown. -/
theorem info_complete (e : Engine) (t : Ticket) (response : Response) (now : Millis) :
    ((e.isCurrent t = false ∨ ∃ fault, response = .error fault) ∧
      (e.complete t response now).value.2.info? = none ∧
      (e.complete t response now).value.1.info = e.info) ∨
    (e.isCurrent t = true ∧ ∃ report, response = .ok report ∧
      (e.complete t response now).value.2.info? = some (shownInfo report) ∧
      (e.complete t response now).value.1.info = some (shownInfo report)) := by
  rcases e.complete_cases t response now with
    ⟨stale, eq⟩ | ⟨-, fault, failed, eq⟩ | ⟨current, report, ok, -, eq⟩ |
      ⟨current, report, b, ok, -, rest⟩
  · rw [eq]
    exact .inl ⟨.inl stale, rfl, rfl⟩
  · rw [eq]
    exact .inl ⟨.inr ⟨fault, failed⟩, rfl, rfl⟩
  · rw [eq]
    exact .inr ⟨current, report, ok, rfl, rfl⟩
  · -- The report is known before its history is looked at, and no merge forgets it.
    have known := (e.informed (shownInfo report)).info_absorb b now
    rcases rest with ⟨_, -, eq⟩ | ⟨_, -, eq⟩
    · rw [eq]
      exact .inr ⟨current, report, ok, rfl, known⟩
    · rw [eq]
      exact .inr ⟨current, report, ok, rfl, known⟩

/-- Which answers show a report, and which one. -/
theorem info?_complete_iff {info : DeviceInfo} :
    (e.complete t response now).value.2.info? = some info ↔
      e.isCurrent t = true ∧ ∃ report, response = .ok report ∧ info = shownInfo report := by
  rcases e.info_complete t response now with
    ⟨nothing, unshown, -⟩ | ⟨current, report, rfl, shown, -⟩
  · rw [unshown]
    refine ⟨fun h => absurd h (by simp), ?_⟩
    rintro ⟨current, report, rfl, -⟩
    rcases nothing with stale | ⟨fault, failed⟩
    · exact absurd current (by simp [stale])
    · exact absurd failed (by simp)
  · rw [shown]
    constructor
    · intro same
      exact ⟨current, report, rfl, (Option.some.inj same).symm⟩
    · rintro ⟨-, report', same, rfl⟩
      rw [Except.ok.inj same]

/-- Which answers are merged. -/
theorem merges_complete_iff :
    (e.complete t response now).value.2.merges = true ↔
      e.isCurrent t = true ∧
        ∃ report b, response = .ok report ∧ report.history = some b ∧ b.mergeable = true := by
  constructor
  · intro merges
    obtain ⟨report, b, ok, history, mergeable, -⟩ := complete_of_merges merges
    exact ⟨isCurrent_of_merges merges, report, b, ok, history, mergeable⟩
  · rintro ⟨current, report, b, rfl, history, mergeable⟩
    have absorbed := (e.informed (shownInfo report)).absorb_of_mergeable mergeable now
    rw [complete_of_history current history now (congrArg Prod.snd absorbed)]
    rfl

/-- **An answer changes just what its outcome says**, whatever the engine, the ticket and the clock.
Series and store change only if the outcome reports a merge: then the history of the report was merged
as any batch is, and the result saved. The outcome shows a report if there was one and its ticket was
awaited, even if the history is rejected; it is the report without its history, converted once, and it
is the one that the engine then knows. Otherwise the engine knows the one that it knew before. -/
theorem answer_changes_what_its_outcome_says (e : Engine) (t : Ticket) (response : Response)
    (now : Millis) :
    let e' := (e.complete t response now).value.1
    let outcome := (e.complete t response now).value.2
    (outcome.merges = true ↔ e.isCurrent t = true ∧
      ∃ report b, response = .ok report ∧ report.history = some b ∧ b.isEmpty = false ∧
        b.fault? = none) ∧
    (outcome.merges = false → e'.series = e.series ∧ e'.store = e.store) ∧
    (outcome.merges = true → ∃ report b merged, response = .ok report ∧ report.history = some b ∧
      outcome = .updated { report with history := none }.inDisplayUnits (some merged) ∧
      (e.series.merge e.settings.window b now).value = (e'.series, .ok merged) ∧
      e'.store = (Archive.save e.settings.keys e'.series e.store).value.1) ∧
    (∀ info, outcome.info? = some info ↔ e.isCurrent t = true ∧
      ∃ report, response = .ok report ∧ info = { report with history := none }.inDisplayUnits) ∧
    e'.info = outcome.info?.or e.info := by
  intro e' outcome
  refine ⟨?_, complete_of_not_merges, fun merges => ?_, fun info => info?_complete_iff, ?_⟩
  · rw [merges_complete_iff]
    simp only [Batch.mergeable_iff]
  · obtain ⟨report, b, ok, history, mergeable, eq⟩ := complete_of_merges merges
    have after : e' = (e.informed (shownInfo report)).saved
        (e.series.absorb e.settings.window b now).1 := congrArg Prod.fst eq
    refine ⟨report, b, _, ok, history, congrArg Prod.snd eq, ?_, ?_⟩
    · rw [e.series.merge_of_mergeable e.settings.window now mergeable, after]
      rfl
    · rw [after]
      rfl
  · rcases e.info_complete t response now with ⟨-, shown, known⟩ | ⟨-, _, -, shown, known⟩
    · rw [known, shown]
      rfl
    · rw [known, shown]
      rfl

/-- A report whose history has no values beside its instant. -/
def ragged : DeviceInfo :=
  { hostname := "miner", history := some ⟨0, [5], [], [], []⟩ }

/-- The history of `ragged` is left out, and the report is known all the same. -/
theorem known_of_ragged :
    let e := (blank.issue 1000).value.1
    let answered := (e.complete ⟨1, 0, 1000⟩ (.ok ragged) 2000).value
    answered.1.series = .empty ∧ answered.1.store = e.store ∧
      ∃ info, answered.2.info? = some info ∧ answered.1.info = some info ∧
        info.hostname = "miner" ∧ info.history = none := by
  intro e answered
  obtain ⟨-, kept, -, shows, known⟩ :=
    answer_changes_what_its_outcome_says e ⟨1, 0, 1000⟩ (.ok ragged) 2000
  have unmerged : answered.2.merges = false := by decide
  obtain ⟨series, store⟩ := kept unmerged
  have shown := (shows { ragged with history := none }.inDisplayUnits).mpr ⟨rfl, ragged, rfl, rfl⟩
  refine ⟨series, store, _, shown, ?_, rfl, rfl⟩
  rw [known, shown]
  rfl

end MinerWatch.Engine
