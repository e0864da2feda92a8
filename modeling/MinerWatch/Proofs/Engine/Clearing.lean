import MinerWatch.Proofs.Engine.Course
import MinerWatch.Proofs.Engine.LatestWins
/-!
Requests that are under way when an engine is cleared.

A cleared engine stays empty until an answer is merged. Which answers those can be is decided by
the tickets alone: clearing withdraws no ticket, so an answer to the newest poll from before is
still taken, and backfills carry no ticket at all. A `Desk` keeps the requests in the order in
which they were made, and which of them were answered since the engine was cleared;
`Desk.Sound` is its invariant.
-/

namespace MinerWatch

/-- A report was taken whose history was merged. -/
def Outcome.merges : Outcome → Bool
  | updated _ (some report) => !report.skipped
  | _ => false

/-- A backfill was merged. -/
def mergesBatch : Except HistoryFault MergeReport → Bool
  | .ok report => !report.skipped
  | .error _ => false

namespace Engine

theorem absorb_of_not_merges {e : Engine} {b : Batch} {now : Millis}
    (h : mergesBatch (e.absorb b now).value.2 = false) : (e.absorb b now).value.1 = e := by
  rcases e.absorb_cases b now with ⟨-, eq⟩ | ⟨_, -, -, eq⟩ | ⟨-, eq⟩
  · rw [eq]
  · rw [eq]
  · rw [eq] at h
    exact absurd h (by simp [mergesBatch])

/-- An answer that is not merged leaves series and store as they are. -/
theorem complete_of_not_merges {e : Engine} {t : Ticket} {response : Response} {now : Millis}
    (h : (e.complete t response now).value.2.merges = false) :
    (e.complete t response now).value.1.series = e.series ∧
      (e.complete t response now).value.1.store = e.store := by
  rcases e.complete_cases t response now with
    ⟨-, eq⟩ | ⟨-, _, -, eq⟩ | ⟨-, _, -, -, eq⟩ | ⟨-, report, b, -, -, rest⟩
  · rw [eq]
    exact ⟨rfl, rfl⟩
  · rw [eq]
    exact ⟨rfl, rfl⟩
  · rw [eq]
    exact ⟨rfl, rfl⟩
  · -- Whether the batch was merged is read off the outcome, and it meets an informed engine.
    have kept : mergesBatch ((e.informed (shownInfo report)).absorb b now).value.2 = false := by
      rcases rest with ⟨merged, result, eq⟩ | ⟨fault, result, -⟩
      · rw [eq] at h
        rw [result]
        exact h
      · rw [result]
        rfl
    have same := absorb_of_not_merges kept
    rcases rest with ⟨_, -, eq⟩ | ⟨_, -, eq⟩
    · rw [eq, same]
      exact ⟨rfl, rfl⟩
    · rw [eq, same]
      exact ⟨rfl, rfl⟩

theorem isCurrent_of_merges {e : Engine} {t : Ticket} {response : Response} {now : Millis}
    (h : (e.complete t response now).value.2.merges = true) : e.isCurrent t = true := by
  by_contra stale
  rw [complete_of_stale (Bool.eq_false_iff.mpr stale)] at h
  exact absurd h (by simp [Outcome.merges])

/-- An answer issues nothing, and at most makes the awaited ticket forgotten. -/
theorem issued_complete (e : Engine) (t : Ticket) (response : Response) (now : Millis) :
    (e.complete t response now).value.1.issued = e.issued ∧
      ∀ k, (e.complete t response now).value.1.awaited = some k → e.awaited = some k := by
  cases current : e.isCurrent t with
  | false =>
      rw [complete_of_stale current]
      exact ⟨rfl, fun _ hk => hk⟩
  | true =>
      obtain ⟨-, issued, awaited⟩ := complete_of_current current response now
      exact ⟨issued, fun k hk => absurd (awaited.symm.trans hk) (by simp)⟩

end Engine

/-! ### The desk -/

/-- What the device was asked for: by a poll with its ticket, or by a backfill from an instant. -/
inductive Request where
  | poll (t : Ticket)
  | backfill (start : Millis)

/-- A merge: the place of its request, and how many requests had been made when it was answered. -/
structure Merged where
  place : Nat
  made : Nat

/-- An engine, the requests made for it, and what was merged since it was last cleared. -/
structure Desk where
  engine : Engine
  requests : List Request := []
  /-- How many requests had been made when the engine was cleared. -/
  cleared : Option Nat := none
  merged : List Merged := []

/-- The request at this place is the poll with this ticket. -/
def PollAt (requests : List Request) (place : Nat) (t : Ticket) : Prop :=
  requests[place]? = some (.poll t)

def BackfillAt (requests : List Request) (place : Nat) (start : Millis) : Prop :=
  requests[place]? = some (.backfill start)

namespace Desk

/-- The desk after an answer to the request at a place. -/
def answered (d : Desk) (place : Nat) (engine : Engine) (merges : Bool) : Desk :=
  { d with engine, merged := if merges then d.merged ++ [⟨place, d.requests.length⟩] else d.merged }

/-- What can happen in any order. Any request may be answered at any time, again, or never. -/
inductive Reached (start : Engine) : Desk → Prop where
  | start : Reached start { engine := start }
  | poll {d} (run : Reached start d) (now : Millis) :
      Reached start { d with
        engine := (d.engine.issue now).value.1
        requests := d.requests ++ [.poll (d.engine.issue now).value.2] }
  | ask {d} (run : Reached start d) (now : Millis) :
      Reached start { d with requests := d.requests ++ [.backfill (d.engine.nextStart now)] }
  | answer {d place t} (run : Reached start d) (asked : PollAt d.requests place t)
      (response : Response) (now : Millis) :
      Reached start (d.answered place (d.engine.complete t response now).value.1
        (d.engine.complete t response now).value.2.merges)
  | fill {d place from_} (run : Reached start d) (asked : BackfillAt d.requests place from_)
      (b : Batch) (now : Millis) :
      Reached start (d.answered place (d.engine.absorb b now).value.1
        (mergesBatch (d.engine.absorb b now).value.2))
  | clear {d} (run : Reached start d)
      (removes : d.engine.store.guard.Removes d.engine.settings.keys) :
      Reached start
        { engine := d.engine.clear.value, requests := d.requests, cleared := some d.requests.length }
  | host {d} (run : Reached start d) (guard : Guard) :
      Reached start { d with engine := { d.engine with store := { d.engine.store with guard } } }

end Desk

/-! ### The tickets among the requests -/

section Requests

variable {requests : List Request} {place : Nat} {t : Ticket} {r : Request}

theorem pollAt_concat :
    PollAt (requests ++ [r]) place t ↔ PollAt requests place t ∨ place = requests.length ∧ r = .poll t := by
  unfold PollAt
  rcases Nat.lt_trichotomy place requests.length with lt | rfl | gt
  · rw [List.getElem?_append_left lt]
    simp [Nat.ne_of_lt lt]
  · simp
  · have beyond : (requests ++ [r]).length ≤ place := by simpa using Nat.succ_le_of_lt gt
    rw [List.getElem?_eq_none beyond, List.getElem?_eq_none (Nat.le_of_lt gt)]
    simp [Nat.ne_of_gt gt]

theorem PollAt.lt_length (h : PollAt requests place t) : place < requests.length :=
  (List.getElem?_eq_some_iff.mp h).1

/-- Polls are numbered upward, no further than the count of tickets, and only the newest is awaited. -/
structure Tickets (requests : List Request) (e : Engine) : Prop where
  counted : ∀ i t, PollAt requests i t → t.id ≤ e.issued
  increasing : ∀ i j s t, PollAt requests i s → PollAt requests j t → i < j → s.id < t.id
  awaited : ∀ k, e.awaited = some k → k = e.issued

theorem Tickets.poll {e : Engine} (h : Tickets requests e) (now : Millis) :
    Tickets (requests ++ [.poll (e.issue now).value.2]) (e.issue now).value.1 := by
  rw [Engine.value_issue]
  refine ⟨fun i t at_ => ?_, fun i j s t first second lt => ?_, fun k hk => ?_⟩
  · rcases pollAt_concat.mp at_ with old | ⟨-, new⟩
    · exact Nat.le_succ_of_le (h.counted i t old)
    · obtain rfl := Request.poll.inj new
      exact Nat.le_refl _
  · rcases pollAt_concat.mp second with old | ⟨rfl, new⟩
    · rcases pollAt_concat.mp first with older | ⟨rfl, -⟩
      · exact h.increasing i j s t older old lt
      · exact absurd old.lt_length (Nat.not_lt.mpr (Nat.le_of_lt lt))
    · obtain rfl := Request.poll.inj new
      rcases pollAt_concat.mp first with older | ⟨rfl, -⟩
      · exact Nat.lt_succ_of_le (h.counted i s older)
      · exact absurd lt (Nat.lt_irrefl _)
  · exact (Option.some.inj hk).symm

theorem Tickets.backfill {e : Engine} (h : Tickets requests e) (start : Millis) :
    Tickets (requests ++ [.backfill start]) e := by
  have old : ∀ i t, PollAt (requests ++ [.backfill start]) i t → PollAt requests i t := by
    intro i t at_
    simpa using pollAt_concat.mp at_
  refine ⟨fun i t at_ => h.counted i t (old i t at_), ?_, h.awaited⟩
  exact fun i j s t first second => h.increasing i j s t (old i s first) (old j t second)

theorem Tickets.congr {e e' : Engine} (h : Tickets requests e) (issued : e'.issued = e.issued)
    (awaited : ∀ k, e'.awaited = some k → e.awaited = some k) : Tickets requests e' := by
  refine ⟨?_, h.increasing, ?_⟩
  · rw [issued]
    exact h.counted
  · rw [issued]
    exact fun k hk => h.awaited k (awaited k hk)

/-! ### What can be merged -/

/-- The request is a backfill, or no poll was made between it and its answer. -/
def Merged.Fresh (requests : List Request) (m : Merged) : Prop :=
  (∃ start, BackfillAt requests m.place start) ∨
  (∃ t, PollAt requests m.place t) ∧ ∀ j t, m.place < j → j < m.made → ¬ PollAt requests j t

theorem Tickets.fresh {e : Engine} (h : Tickets requests e) (asked : PollAt requests place t)
    (current : e.isCurrent t = true) : Merged.Fresh requests ⟨place, requests.length⟩ := by
  have last : t.id = e.issued := h.awaited t.id (by simpa [Engine.isCurrent] using current)
  refine .inr ⟨⟨t, asked⟩, fun j u later _ at_ => ?_⟩
  have newer := h.increasing place j t u asked at_ later
  have counted := h.counted j u at_
  omega

theorem Merged.Fresh.concat {m : Merged} (h : m.Fresh requests) (made : m.made ≤ requests.length)
    (r : Request) : m.Fresh (requests ++ [r]) := by
  rcases h with ⟨start, at_⟩ | ⟨⟨t, at_⟩, newest⟩
  · have bound := (List.getElem?_eq_some_iff.mp at_).1
    exact .inl ⟨start, (List.getElem?_append_left bound).trans at_⟩
  · refine .inr ⟨⟨t, pollAt_concat.mpr (.inl at_)⟩, fun j u later before new => ?_⟩
    rcases pollAt_concat.mp new with old | ⟨rfl, -⟩
    · exact newest j u later before old
    · exact absurd before (Nat.not_lt.mpr made)

end Requests

/-! ### The invariant -/

namespace Desk

variable {d : Desk} {start : Engine} {place : Nat}

/-- Neither samples nor a cursor, and neither entry is there. -/
structure Bare (e : Engine) : Prop where
  series : e.series = .empty
  chart : e.store.entry? e.settings.keys.chart = none
  cursor : e.store.entry? e.settings.keys.cursor = none

structure Sound (d : Desk) : Prop where
  tickets : Tickets d.requests d.engine
  bare : d.cleared ≠ none → d.merged = [] → Bare d.engine
  fresh : ∀ m ∈ d.merged, m.made ≤ d.requests.length ∧ m.Fresh d.requests
  since : ∀ n, d.cleared = some n → n ≤ d.requests.length ∧ ∀ m ∈ d.merged, n ≤ m.made

/-- One more request changes nothing that was merged before. -/
theorem Sound.request (h : d.Sound) {engine : Engine} {r : Request}
    (tickets : Tickets (d.requests ++ [r]) engine) (same : Bare d.engine → Bare engine) :
    Sound { d with engine, requests := d.requests ++ [r] } where
  tickets := tickets
  bare cleared nothing := same (h.bare cleared nothing)
  fresh m hm := by
    obtain ⟨made, fresh⟩ := h.fresh m hm
    exact ⟨by simpa using Nat.le_succ_of_le made, fresh.concat made r⟩
  since n hn := by
    obtain ⟨made, merged⟩ := h.since n hn
    exact ⟨by simpa using Nat.le_succ_of_le made, merged⟩

/-- An answer is merged only if its request is fresh, and else leaves the engine bare. -/
theorem Sound.answered (h : d.Sound) {engine : Engine} {merges : Bool}
    (tickets : Tickets d.requests engine)
    (fresh : merges = true → Merged.Fresh d.requests ⟨place, d.requests.length⟩)
    (same : merges = false → Bare d.engine → Bare engine) : (d.answered place engine merges).Sound := by
  cases merges with
  | false =>
      exact ⟨tickets, fun cleared nothing => same rfl (h.bare cleared nothing), h.fresh, h.since⟩
  | true =>
      refine ⟨tickets, fun _ nothing => absurd nothing (by simp [Desk.answered]), ?_, ?_⟩
      · intro m hm
        rcases List.mem_append.mp hm with hm | hm
        · exact h.fresh m hm
        · obtain rfl := List.mem_singleton.mp hm
          exact ⟨Nat.le_refl _, fresh rfl⟩
      · intro n hn
        obtain ⟨made, merged⟩ := h.since n hn
        refine ⟨made, fun m hm => ?_⟩
        rcases List.mem_append.mp hm with hm | hm
        · exact merged m hm
        · obtain rfl := List.mem_singleton.mp hm
          exact made

theorem Sound.clear (h : d.Sound) (removes : d.engine.store.guard.Removes d.engine.settings.keys) :
    Sound { engine := d.engine.clear.value, requests := d.requests, cleared := some d.requests.length } where
  tickets := h.tickets.congr rfl fun _ hk => hk
  bare _ _ := by
    obtain ⟨chart, cursor⟩ := Archive.entry?_clear removes
    exact ⟨rfl, chart, cursor⟩
  fresh m hm := absurd hm (by simp)
  since n hn := by
    obtain rfl := Option.some.inj hn
    exact ⟨Nat.le_refl _, fun m hm => absurd hm (by simp)⟩

theorem Reached.sound (run : Reached start d) (awaited : start.awaited = none) : d.Sound := by
  induction run with
  | start =>
      refine ⟨⟨?_, ?_, ?_⟩, fun cleared => absurd rfl cleared, ?_, ?_⟩
      · exact fun i t at_ => absurd at_ (by simp [PollAt])
      · exact fun i j s t at_ => absurd at_ (by simp [PollAt])
      · exact fun k hk => absurd (awaited.symm.trans hk) (by simp)
      · exact fun m hm => absurd hm (by simp)
      · exact fun n hn => absurd hn (by simp)
  | poll _ now ih =>
      exact ih.request (ih.tickets.poll now) fun bare => ⟨bare.series, bare.chart, bare.cursor⟩
  | ask _ now ih => exact ih.request (ih.tickets.backfill _) fun bare => bare
  | @answer d place t _ asked response now ih =>
      obtain ⟨issued, awaited⟩ := d.engine.issued_complete t response now
      apply ih.answered (ih.tickets.congr issued awaited)
      · exact fun merges => ih.tickets.fresh asked (Engine.isCurrent_of_merges merges)
      · intro kept bare
        obtain ⟨series, store⟩ := Engine.complete_of_not_merges kept
        have settings := d.engine.settings_complete t response now
        exact ⟨series.trans bare.series, by rw [store, settings]; exact bare.chart,
          by rw [store, settings]; exact bare.cursor⟩
  | @fill d place from_ _ asked b now ih =>
      obtain ⟨issued, awaited⟩ := Engine.tickets_absorb d.engine b now
      apply ih.answered (ih.tickets.congr issued fun k hk => awaited ▸ hk)
      · exact fun _ => .inl ⟨from_, asked⟩
      · intro kept bare
        rw [Engine.absorb_of_not_merges kept]
        exact bare
  | clear _ removes ih => exact ih.clear removes
  | host _ guard ih =>
      refine ⟨ih.tickets.congr rfl fun _ hk => hk, fun cleared nothing => ?_, ih.fresh, ih.since⟩
      have bare := ih.bare cleared nothing
      exact ⟨bare.series, bare.chart, bare.cursor⟩

theorem Reached.settings (run : Reached start d) : d.engine.settings = start.settings := by
  induction run with
  | start => rfl
  | poll _ now ih => exact ih
  | ask _ now ih => exact ih
  | answer _ asked response now ih => exact (Engine.settings_complete _ _ _ _).trans ih
  | fill _ asked b now ih => exact (Engine.settings_absorb _ _ _).trans ih
  | clear _ removes ih => exact ih
  | host _ guard ih => exact ih

end Desk

namespace Engine

/-- **A cleared engine stays empty until an answer is merged, and clearing withdraws no request.**
What is merged afterwards although it was asked for before is the answer to a backfill, or to the
poll that was the newest when the engine was cleared and still is. -/
theorem bare_until_merged {store : Store} {settings : Settings} {start : Engine} {d : Desk} {n : Nat}
    (restored : (restore store settings).value = .ok start) (run : Desk.Reached start d)
    (cleared : d.cleared = some n) :
    (d.merged = [] → d.engine.series = .empty ∧
      d.engine.store.entry? settings.keys.chart = none ∧
      d.engine.store.entry? settings.keys.cursor = none) ∧
    ∀ m ∈ d.merged, n ≤ m.made ∧ m.Fresh d.requests := by
  obtain ⟨-, rfl⟩ := restore_eq_ok restored
  have sound := run.sound rfl
  refine ⟨fun nothing => ?_, fun m hm => ⟨(sound.since n cleared).2 m hm, (sound.fresh m hm).2⟩⟩
  have bare := sound.bare (by simp [cleared]) nothing
  have same : d.engine.settings = settings := run.settings
  rw [← same]
  exact ⟨bare.series, bare.chart, bare.cursor⟩

/-- An answer to the first of two polls does not get into an engine that was cleared after them. -/
theorem bare_after_first_answer :
    ∃ d : Desk, Desk.Reached blank d ∧ d.requests.length = 3 ∧ d.cleared = some 3 ∧
      d.engine.series = .empty ∧ d.engine.store.entry? "chartData" = none ∧
      d.engine.store.entry? "lastTimestamp" = none := by
  have fresh : Desk.Reached blank ⟨blank, [], none, []⟩ := .start
  have filled := (fresh.ask 100).fill (show BackfillAt _ 0 _ from rfl) (.idle 0 [10, 20]) 100
  have polled := (filled.poll 1000).poll 2000
  have cleared := polled.clear ⟨by decide, by decide⟩
  have answered := cleared.answer (show PollAt _ 1 _ from rfl)
    (.ok { history := some (.idle 0 [500]) }) 3000
  have bare := (bare_until_merged restore_blank answered rfl).1 rfl
  exact ⟨_, answered, rfl, rfl, bare⟩

/-- An answer to the newest poll does, although it was asked for before. Nothing older is then asked
for again. -/
theorem old_answer_after_clear :
    ∃ d : Desk, Desk.Reached blank d ∧ d.cleared = some 1 ∧ (∃ m ∈ d.merged, m.place < 1) ∧
      d.engine.series.times = [2000] ∧ d.engine.nextStart 2000 = 2001 := by
  have fresh : Desk.Reached blank ⟨blank, [], none, []⟩ := .start
  have cleared := (fresh.poll 1000).clear ⟨rfl, rfl⟩
  have answered := cleared.answer (show PollAt _ 0 _ from rfl)
    (.ok { history := some (.idle 2000 [0]) }) 2000
  refine ⟨_, answered, rfl, ?_, ?_, ?_⟩
  · decide
  · decide
  · decide

end Engine
end MinerWatch
