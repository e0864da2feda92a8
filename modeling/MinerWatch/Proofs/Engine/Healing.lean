import MinerWatch.Proofs.Engine.Operation
import MinerWatch.Proofs.Engine.Reload
/-!
A store that fails now and then.

After it was restored, an engine only writes to its store and never reads it. So two engines that
differ in their stores alone (`Engine.on`) answer each operation alike and still differ in their stores
alone after it (`reply_on`, `perform_on`): what a host refuses shows nowhere else. And what is written is
the whole series each time, so the first save that the host lets through puts both entries right
(`Merges.exists_entries`), however long they had been left behind.
-/

namespace MinerWatch

namespace Engine

open Archive

/-- What an operation hands to its caller. -/
inductive Reply where
  | ticket (t : Ticket)
  | outcome (outcome : Outcome)
  | merge (result : Except HistoryFault MergeReport)
  | nothing

def reply (e : Engine) : Operation → Reply
  | .issue now => .ticket (e.issue now).value.2
  | .complete t response now => .outcome (e.complete t response now).value.2
  | .absorb b now => .merge (e.absorb b now).value.2
  | .clear => .nothing
  | .host _ => .nothing

/-- The engine, at work on another store. -/
def on (e : Engine) (store : Store) : Engine :=
  { e with store }

variable {e f e' f' : Engine} {op : Operation} {keys : ArchiveKeys} {mood : Guard → Prop}

/-! ### The store is not read -/

theorem absorb_on (e : Engine) (store : Store) (b : Batch) (now : Millis) :
    ∃ left, ((e.on store).absorb b now).value =
      ((e.absorb b now).value.1.on left, (e.absorb b now).value.2) := by
  simp only [absorb, Logged.value_bind, on]
  cases (e.series.merge e.settings.window b now).value.2 with
  | error fault => exact ⟨_, rfl⟩
  | ok report =>
      dsimp only
      split
      · exact ⟨_, rfl⟩
      · simp only [Logged.value_bind, Logged.value_pure, value_persist]
        exact ⟨_, rfl⟩

theorem complete_on (e : Engine) (store : Store) (t : Ticket) (response : Response) (now : Millis) :
    ∃ left, ((e.on store).complete t response now).value =
      ((e.complete t response now).value.1.on left, (e.complete t response now).value.2) := by
  cases current : e.isCurrent t with
  | false =>
      rw [complete_of_stale current, complete_of_stale (e := e.on store) current]
      exact ⟨store, rfl⟩
  | true =>
      have current' : (e.on store).isCurrent t = true := current
      cases response with
      | error fault => exact ⟨store, by simp only [complete, current, current']; rfl⟩
      | ok report =>
          simp only [complete, current, current', Bool.not_true, Bool.false_eq_true, if_false]
          cases report.history with
          | none => exact ⟨store, rfl⟩
          | some b =>
              -- The report is taken first, and the history meets engines that differ as before.
              obtain ⟨left, absorbed⟩ := (e.informed (shownInfo report)).absorb_on store b now
              simp only [informed, shownInfo, on] at absorbed
              simp only [Logged.value_bind, on, absorbed]
              refine ⟨left, ?_⟩
              cases (Engine.absorb _ b now).value.2 <;> rfl

theorem perform_on (e : Engine) (store : Store) (own : op.own = true) :
    ∃ left, (e.on store).perform op = (e.perform op).on left := by
  cases op with
  | issue now => exact ⟨store, rfl⟩
  | clear => exact ⟨_, rfl⟩
  | host other => exact absurd own (by simp [Operation.own])
  | absorb b now =>
      obtain ⟨left, eq⟩ := e.absorb_on store b now
      exact ⟨left, congrArg Prod.fst eq⟩
  | complete t response now =>
      obtain ⟨left, eq⟩ := e.complete_on store t response now
      exact ⟨left, congrArg Prod.fst eq⟩

theorem reply_on (e : Engine) (store : Store) (op : Operation) :
    (e.on store).reply op = e.reply op := by
  cases op with
  | issue now => rfl
  | clear => rfl
  | host other => rfl
  | absorb b now =>
      obtain ⟨_, eq⟩ := e.absorb_on store b now
      exact congrArg (fun done => Reply.merge done.2) eq
  | complete t response now =>
      obtain ⟨_, eq⟩ := e.complete_on store t response now
      exact congrArg (fun done => Reply.outcome done.2) eq

theorem merged?_on (e : Engine) (store : Store) (op : Operation) :
    (e.on store).merged? op = e.merged? op := by
  cases op with
  | issue now => rfl
  | clear => rfl
  | host other => rfl
  | absorb b now =>
      obtain ⟨_, eq⟩ := e.absorb_on store b now
      simp only [merged?, eq]
  | complete t response now =>
      obtain ⟨_, eq⟩ := e.complete_on store t response now
      cases response with
      | error fault => rfl
      | ok report => simp only [merged?, eq]

/-! ### What the host keeps to -/

/-- No operation of the engine changes the host's mind. -/
theorem granted_perform (own : op.own = true) (before : mood e.store.guard) :
    mood (e.perform op).store.guard := by
  by_cases clears : op = .clear
  · rw [clears, perform, value_clear, guard_clear]
    exact before
  · exact (step_perform own clears).granted before

/-! ### Two engines that are operated alike -/

/-- Two engines are operated alike, and the host of the second changes its mind in between, within a
mood that it keeps to. -/
inductive Abreast (mood : Guard → Prop) (e f : Engine) : Engine → Engine → Prop where
  | start : Abreast mood e f e f
  | operate {e' f' : Engine} (abreast : Abreast mood e f e' f') {op : Operation}
      (own : op.own = true) : Abreast mood e f (e'.perform op) (f'.perform op)
  | host {e' f' : Engine} (abreast : Abreast mood e f e' f') {guard : Guard}
      (granted : mood guard) : Abreast mood e f e' (f'.on { f'.store with guard })

theorem Abreast.same (abreast : Abreast mood e f e' f') (same : f = e.on f.store) :
    f' = e'.on f'.store := by
  induction abreast with
  | start => exact same
  | @operate e' f' _ op own ih =>
      obtain ⟨left, eq⟩ := e'.perform_on f'.store own
      rw [← ih] at eq
      rw [eq]
      rfl
  | host _ granted ih =>
      rw [ih]
      rfl

/-- What the host of the first grants, it always grants. -/
theorem Abreast.granted_first {always : Guard → Prop} (abreast : Abreast mood e f e' f')
    (granted : always e.store.guard) : always e'.store.guard := by
  induction abreast with
  | start => exact granted
  | operate _ own ih => exact granted_perform own ih
  | host _ _ ih => exact ih

theorem Abreast.settings (abreast : Abreast mood e f e' f') : e'.settings = e.settings := by
  induction abreast with
  | start => rfl
  | operate _ _ ih => exact (settings_perform _ _).trans ih
  | host _ _ ih => exact ih

theorem Abreast.granted_second (abreast : Abreast mood e f e' f') (granted : mood f.store.guard) :
    mood f'.store.guard := by
  induction abreast with
  | start => exact granted
  | operate _ own ih => exact granted_perform own ih
  | host _ granted' _ => exact granted'

/-! ### What is saved -/

/-- Two stores have the same under both keys. -/
structure SameEntries (keys : ArchiveKeys) (store store' : Store) : Prop where
  chart : store.entry? keys.chart = store'.entry? keys.chart
  cursor : store.entry? keys.cursor = store'.entry? keys.cursor

/-- If both writes are granted, the entries are those of the merged series, whatever they were. -/
theorem Merges.exists_entries (m : e.Merges e')
    (distinct : e.settings.keys.chart ≠ e.settings.keys.cursor)
    (writes : e.store.guard.Writes e.settings.keys) :
    ∃ cursor, e'.series.cursor = some cursor ∧
      e'.store.entry? e.settings.keys.chart = some (writeChart e'.series) ∧
      e'.store.entry? e.settings.keys.cursor = some (writeCursor cursor) := by
  obtain ⟨cursor, known, -⟩ := m.exists_cursor
  obtain ⟨chartEntry, cursorEntry⟩ := entry?_holding e'.series cursor e.store distinct
  refine ⟨cursor, known, ?_⟩
  rw [m.store]
  rcases save_cases e.settings.keys known e.store with ⟨refused, -⟩ | ⟨refused, -⟩ | eq
  · exact absurd writes.1 refused
  · exact absurd writes.2 refused
  · rw [eq]
    exact ⟨chartEntry, cursorEntry⟩

theorem sameEntries_of_merged {b : Batch} {now : Millis} {store : Store}
    (distinct : e.settings.keys.chart ≠ e.settings.keys.cursor)
    (merged : e.merged? op = some (b, now)) (own : op.own = true)
    (writes : e.store.guard.Writes e.settings.keys) (writes' : store.guard.Writes e.settings.keys) :
    SameEntries e.settings.keys ((e.on store).perform op).store (e.perform op).store := by
  obtain ⟨left, eq⟩ := e.perform_on store own
  have merges := merges_of_merged merged
  have merges' := merges_of_merged ((e.merged?_on store op).trans merged)
  obtain ⟨cursor, known, chart, position⟩ := merges.exists_entries distinct writes
  obtain ⟨cursor', known', chart', position'⟩ := merges'.exists_entries distinct writes'
  have series : ((e.on store).perform op).series = (e.perform op).series := by
    rw [eq]
    rfl
  rw [series] at known' chart'
  obtain rfl := Option.some.inj (known.symm.trans known')
  exact ⟨chart'.trans chart.symm, position'.trans position.symm⟩

theorem sameEntries_of_clear {store : Store} (removes : e.store.guard.Removes e.settings.keys)
    (removes' : store.guard.Removes e.settings.keys) :
    SameEntries e.settings.keys ((e.on store).perform .clear).store (e.perform .clear).store := by
  obtain ⟨chart, position⟩ := entry?_clear removes
  obtain ⟨chart', position'⟩ := entry?_clear removes'
  exact ⟨chart'.trans chart.symm, position'.trans position.symm⟩

/-- **A failing store changes nothing but itself, and heals.** Two engines are restored from stores with
the same entries and operated alike. If one host grants everything and the other refuses any writes
whenever it likes, the engines always differ in their stores alone and answer each operation alike.
And whenever the second host takes both writes of a merge, and whenever the engines are cleared, its
store has the same under both keys as the first. -/
theorem failures_stay_in_the_store {store other : Store} {settings : Settings}
    (obliging : Obliging settings.keys store.guard) (balking : Balking settings.keys other.guard)
    (entries : ∀ key, other.entry? key = store.entry? key)
    (restored : (restore store settings).value = .ok e)
    (restored' : (restore other settings).value = .ok f)
    (abreast : Abreast (Balking settings.keys) e f e' f') :
    f' = { e' with store := f'.store } ∧
    ∀ op : Operation, op.own = true →
      f'.reply op = e'.reply op ∧
      (∀ b now, e'.merged? op = some (b, now) → f'.store.guard.Writes settings.keys →
        SameEntries settings.keys (f'.perform op).store (e'.perform op).store) ∧
      (op = .clear → SameEntries settings.keys (f'.perform op).store (e'.perform op).store) := by
  obtain ⟨sound, rfl⟩ := restore_eq_ok restored
  obtain ⟨-, rfl⟩ := restore_eq_ok restored'
  have loaded : (load settings.keys other).value = (load settings.keys store).value := by
    rw [value_load, value_load, Store.read?_of_readable balking.reads.1,
      Store.read?_of_readable balking.reads.2, Store.read?_of_readable obliging.reads.1,
      Store.read?_of_readable obliging.reads.2, entries, entries]
  have same : f' = e'.on f'.store := abreast.same (by rw [loaded]; rfl)
  have obliging' : Obliging settings.keys e'.store.guard := abreast.granted_first obliging
  have balking' : Balking settings.keys f'.store.guard := abreast.granted_second balking
  obtain rfl : e'.settings = settings := abreast.settings
  have distinct := Settings.keys_ne sound
  refine ⟨same, fun op own => ⟨?_, fun b now merged writes => ?_, ?_⟩⟩
  · rw [same]
    exact e'.reply_on f'.store op
  · have healed := sameEntries_of_merged distinct merged own obliging'.writes writes
    rw [← same] at healed
    exact healed
  · rintro rfl
    have emptied := sameEntries_of_clear obliging'.removes balking'.removes
    rw [← same] at emptied
    exact emptied

/-- A store in which nothing can be written. -/
def readOnly : Store where
  entries := []
  guard := .inMemory true []

/-- A store that cannot be written has nothing of the first batch, and when it can be written it gets
both batches with the second. -/
theorem readOnly_heals :
    ∃ e f : Engine, Abreast (Balking {}) blank (blank.on readOnly) e f ∧
      e.store.entry? "chartData" ≠ none ∧ f.store.entry? "chartData" = none ∧
      let next := Operation.absorb (.idle 0 [10]) 100
      (f.perform next).series.times = [5, 10] ∧
        SameEntries {} (f.perform next).store (e.perform next).store := by
  have obliging : Obliging {} blank.store.guard := ⟨⟨rfl, rfl⟩, ⟨rfl, rfl⟩, ⟨rfl, rfl⟩⟩
  have balking : Balking {} readOnly.guard := ⟨⟨rfl, rfl⟩, ⟨rfl, rfl⟩⟩
  have free : Balking {} {} := ⟨⟨rfl, rfl⟩, ⟨rfl, rfl⟩⟩
  have entries : ∀ key, readOnly.entry? key = blank.store.entry? key := fun _ => rfl
  have restored : (restore readOnly {}).value = .ok (blank.on readOnly) := by
    rw [restore_of_sound (by decide), value_load]
    rfl
  let first := Operation.absorb (.idle 0 [5]) 100
  let next := Operation.absorb (.idle 0 [10]) 100
  have begun : Abreast (Balking {}) blank (blank.on readOnly) blank (blank.on readOnly) := .start
  have healing := (begun.operate (show first.own = true from rfl)).host free
  obtain ⟨-, laws⟩ :=
    failures_stay_in_the_store obliging balking entries restore_blank restored healing
  obtain ⟨-, healed, -⟩ := laws next rfl
  have reported : mergesBatch ((blank.perform first).absorb (.idle 0 [10]) 100).value.2 = true := by
    decide
  have merged : (blank.perform first).merged? next = some (.idle 0 [10], 100) := by
    simp only [next, merged?, reported, if_true]
  exact ⟨_, _, healing, by decide, by decide, by decide,
    healed _ _ merged ⟨rfl, rfl⟩⟩

end Engine
end MinerWatch
