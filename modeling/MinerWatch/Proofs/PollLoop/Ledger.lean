import MinerWatch.PollLoop.Basic
import MinerWatch.Proofs.Engine.LatestWins
/-!
The ledger of a poll loop.

A loop runs among ticks that fire, answers that become ready and others who use its
engine, in any order of these, and leaves a log. The log is all there is to know: the engine is
what it makes of the one at the start (`Run.engine_eq`). `Ledger` is what it says of loop and
engine between two events. Its center ties the two ways in which a request is overtaken to each
other: a request that is not aborted is the one whose ticket the engine awaits.
-/

namespace MinerWatch

namespace PollStats

variable {outcome : Outcome}

theorem issued_count (s : PollStats) (outcome : Outcome) : (s.count outcome).issued = s.issued := by
  cases outcome <;> rfl

theorem superseded_count (h : outcome.takesEffect = true) (s : PollStats) :
    (s.count outcome).superseded = s.superseded := by
  cases outcome with
  | superseded => exact absurd h (by simp [Outcome.takesEffect])
  | _ => rfl

theorem applied_count (h : outcome.takesEffect = true) (s : PollStats) (t : Ticket) :
    (s.count outcome).applied =
      s.applied + [(t, outcome)].countP (·.2.info?.isSome) := by
  cases outcome with
  | superseded => exact absurd h (by simp [Outcome.takesEffect])
  | _ => rfl

theorem failed_count (h : outcome.takesEffect = true) (s : PollStats) (t : Ticket) :
    (s.count outcome).failed =
      s.failed + [(t, outcome)].countP (·.2.info?.isNone) := by
  cases outcome with
  | superseded => exact absurd h (by simp [Outcome.takesEffect])
  | _ => rfl

end PollStats

namespace PollLoop

/-- What happens to a loop and around it. -/
inductive Event where
  /-- A tick fired. -/
  | fired
  /-- The ticks came to their end. -/
  | ended
  /-- The outstanding requests took another order. They are a set, and promise none. -/
  | shuffled
  /-- Somebody else used the engine and left it like this. -/
  | elsewhere (left : Engine)
  | moved (now : Millis) (ready : ReadyAnswers) (move : Move)

/-- The tickets asked in a log, oldest first. -/
def askedIn (log : List Event) : List Ticket :=
  log.filterMap fun
    | .moved _ _ (.asked t) => some t
    | _ => none

/-- The tickets whose outcome was shown, and the outcomes, in order. -/
def shownIn (log : List Event) : List (Ticket × Outcome) :=
  log.filterMap fun
    | .moved _ _ (.settled t outcome) => some (t, outcome)
    | _ => none

def settledIn (log : List Event) : List Ticket :=
  (shownIn log).map (·.1)

/-- The tickets whose request was dropped after it had been aborted. -/
def droppedIn (log : List Event) : List Ticket :=
  log.filterMap fun
    | .moved _ _ (.dropped t) => some t
    | _ => none

/-- The engine after an event: a tick issues its next ticket, and an outcome is that of completing the
ticket with the answer that is ready for it. -/
def Event.effect (e : Engine) : Event → Engine
  | .elsewhere left => left
  | .moved now _ (.asked _) => (e.issue now).value.1
  | .moved now ready (.settled t _) =>
    match ready t.id with
    | some answer => (e.complete t answer.value now).value.1
    | none => e
  | _ => e

/-- The engine that a log leaves behind. -/
def engineAfter (start : Engine) (log : List Event) : Engine :=
  log.foldl Event.effect start

/-- The runs of a loop on an engine that others use too, though they neither issue a ticket nor
complete one. Ticks fire until they end; answers are ready as they please. -/
inductive Run (start : Engine) : PollLoop → Engine → List Event → Prop where
  | start : Run start {} start []
  | fire {l e log} (run : Run start l e log) (more : .ended ∉ log) :
      Run start l.tick e (log ++ [.fired])
  | finish {l e log} (run : Run start l e log) (more : .ended ∉ log) :
      Run start l e (log ++ [.ended])
  | shuffle {l e log} (run : Run start l e log) {requests : List PollRequest}
      (perm : requests.Perm l.requests) : Run start { l with requests } e (log ++ [.shuffled])
  | elsewhere {l e log} (run : Run start l e log) {e' : Engine} (issued : e'.issued = e.issued)
      (awaited : e'.awaited = e.awaited) : Run start l e' (log ++ [.elsewhere e'])
  | move {l e log} (run : Run start l e log) (now : Millis) (ready : ReadyAnswers)
      {moved : Logged (PollLoop × Engine × Move)} (step : l.step e now ready = some moved) :
      Run start moved.value.1 moved.value.2.1 (log ++ [.moved now ready moved.value.2.2])

/-- The loop has come to its end: no tick will fire, none is due, and nothing is outstanding. -/
def Returned (l : PollLoop) (log : List Event) : Prop :=
  .ended ∈ log ∧ l.dueTicks = 0 ∧ l.requests = []

/-! ### One move -/

variable {l : PollLoop} {e : Engine} {now : Millis} {ready : ReadyAnswers}

def settle (l : PollLoop) (r : PollRequest) (outcome : Outcome) : PollLoop :=
  { l.without r with stats := l.stats.count outcome }

/-- All that a move can do: drop an aborted request, take the answer of another one, or take a tick
while no request has finished. -/
theorem step_cases {moved : Logged (PollLoop × Engine × Move)}
    (h : l.step e now ready = some moved) :
    (∃ r ∈ l.requests, r.aborted = true ∧
      moved.value = (l.dropAborted r, e, .dropped r.ticket)) ∨
    (∃ r ∈ l.requests, r.aborted = false ∧ ∃ answer, ready r.ticket.id = some answer ∧
      moved.value = (l.settle r (e.complete r.ticket answer.value now).value.2,
        (e.complete r.ticket answer.value now).value.1,
        .settled r.ticket (e.complete r.ticket answer.value now).value.2)) ∨
    ((∀ r ∈ l.requests, r.finished ready = false) ∧ l.dueTicks ≠ 0 ∧
      moved.value = (l.takeTick e now).value) := by
  unfold step at h
  split at h
  · rename_i r found
    have mem := List.mem_of_find?_eq_some found
    split at h
    · rename_i aborted
      obtain rfl := Option.some.inj h
      exact .inl ⟨r, mem, aborted, rfl⟩
    · rename_i unaborted
      obtain ⟨answer, answered, rfl⟩ := Option.map_eq_some_iff.mp h
      exact .inr (.inl ⟨r, mem, Bool.eq_false_iff.mpr unaborted, answer, answered, rfl⟩)
  · rename_i none_found
    split at h
    · exact absurd h (by simp)
    · rename_i due
      obtain rfl := Option.some.inj h
      refine .inr (.inr ⟨fun r hr => ?_, due, rfl⟩)
      exact Bool.eq_false_iff.mpr (List.find?_eq_none.mp none_found r hr)

/-- A loop that cannot move waits for a tick and for answers to requests that are not aborted. -/
theorem waits_of_step_eq_none (h : l.step e now ready = none) :
    l.dueTicks = 0 ∧ ∀ r ∈ l.requests, r.aborted = false ∧ ready r.ticket.id = none := by
  unfold step at h
  split at h
  · rename_i r found
    have finished := List.find?_some found
    split at h
    · exact absurd h (by simp)
    · rename_i unaborted
      simp [PollRequest.finished, Option.map_eq_none_iff.mp h, unaborted] at finished
  · rename_i none_found
    split at h
    · rename_i due
      refine ⟨due, fun r hr => ?_⟩
      simpa [PollRequest.finished] using List.find?_eq_none.mp none_found r hr
    · exact absurd h (by simp)

/-! ### The engine -/

theorem engineAfter_concat (start : Engine) (log : List Event) (event : Event) :
    engineAfter start (log ++ [event]) = event.effect (engineAfter start log) := by
  rw [engineAfter, List.foldl_append]
  rfl

/-- A move does to the engine what the log says of it. -/
theorem effect_of_step {moved : Logged (PollLoop × Engine × Move)}
    (h : l.step e now ready = some moved) :
    Event.effect e (.moved now ready moved.value.2.2) = moved.value.2.1 := by
  rcases step_cases h with ⟨r, -, -, eq⟩ | ⟨r, -, -, answer, answered, eq⟩ | ⟨-, -, eq⟩
  · rw [eq]
    rfl
  · rw [eq, Event.effect, answered]
  · rw [eq]
    rfl

theorem Run.engine_eq {start : Engine} {log : List Event} (run : Run start l e log) :
    engineAfter start log = e := by
  induction run with
  | start => rfl
  | fire run more ih | finish run more ih | shuffle run perm ih =>
      rw [engineAfter_concat, ih]
      rfl
  | elsewhere run issued awaited ih => exact engineAfter_concat ..
  | move run now ready step ih => rw [engineAfter_concat, ih, effect_of_step step]

/-! ### The invariant -/

/-- What the log says of a loop and its engine between two events. -/
structure Ledger (l : PollLoop) (e : Engine) (log : List Event) : Prop where
  /-- Requests are asked with ever larger numbers. -/
  numbered : (askedIn log).Pairwise (fun a b => a.id < b.id)
  bounded : ∀ t ∈ askedIn log, t.id ≤ e.issued
  /-- Each request asked is shown, dropped or outstanding, and only one of these. -/
  once : (askedIn log).Perm (settledIn log ++ droppedIn log ++ l.requests.map (·.ticket))
  /-- A request that is not aborted is the newest, and the one that the engine awaits. -/
  awaited : ∀ r ∈ l.requests, r.aborted = false →
    (askedIn log).getLast? = some r.ticket ∧ e.awaited = some r.ticket.id
  /-- A request is aborted only because a newer one was asked. -/
  overtaken : ∀ r ∈ l.requests, r.aborted = true → (askedIn log).getLast? ≠ some r.ticket
  dropped : ∀ t ∈ droppedIn log, (askedIn log).getLast? ≠ some t
  /-- Outcomes are shown in the order of their tickets. -/
  increasing : (settledIn log).Pairwise (fun a b => a.id < b.id)
  effective : ∀ p ∈ shownIn log, p.2.takesEffect = true
  issued : l.stats.issued = (askedIn log).length
  superseded : l.stats.superseded = (droppedIn log).length
  applied : l.stats.applied = (shownIn log).countP (·.2.info?.isSome)
  failed : l.stats.failed = (shownIn log).countP (·.2.info?.isNone)

variable {log : List Event}

/-- An event that is no move of the loop leaves the ledger as it is. -/
theorem Ledger.of_quiet (ledger : Ledger l e log) {l' : PollLoop} {e' : Engine} {event : Event}
    (perm : l'.requests.Perm l.requests) (stats : l'.stats = l.stats)
    (issued : e'.issued = e.issued) (awaited : e'.awaited = e.awaited)
    (quiet : ∀ now ready move, event ≠ .moved now ready move) :
    Ledger l' e' (log ++ [event]) := by
  have asked : askedIn (log ++ [event]) = askedIn log := by
    cases event <;> simp [askedIn] at quiet ⊢
  have shown : shownIn (log ++ [event]) = shownIn log := by
    cases event <;> simp [shownIn] at quiet ⊢
  have dropped : droppedIn (log ++ [event]) = droppedIn log := by
    cases event <;> simp [droppedIn] at quiet ⊢
  constructor
  all_goals simp only [asked, shown, dropped, settledIn, issued, awaited, stats]
  · exact ledger.numbered
  · exact ledger.bounded
  · exact ledger.once.trans (List.Perm.append_left _ (perm.symm.map _))
  · exact fun r hr => ledger.awaited r (perm.subset hr)
  · exact fun r hr => ledger.overtaken r (perm.subset hr)
  · exact ledger.dropped
  · exact ledger.increasing
  · exact ledger.effective
  · exact ledger.issued
  · exact ledger.superseded
  · exact ledger.applied
  · exact ledger.failed

/-- No two requests that are accounted for in any way have one number. -/
theorem Ledger.distinct (ledger : Ledger l e log) :
    (settledIn log ++ droppedIn log ++ l.requests.map (·.ticket)).Pairwise
      (fun a b => a.id ≠ b.id) := by
  refine ledger.once.pairwise (ledger.numbered.imp Nat.ne_of_lt) ?_
  exact fun ne => Ne.symm ne

theorem Ledger.asked_of_mem (ledger : Ledger l e log) {r : PollRequest} (hr : r ∈ l.requests) :
    r.ticket ∈ askedIn log :=
  ledger.once.mem_iff.mpr (List.mem_append_right _ (List.mem_map_of_mem hr))

theorem Ledger.asked_of_settled (ledger : Ledger l e log) {t : Ticket} (ht : t ∈ settledIn log) :
    t ∈ askedIn log :=
  ledger.once.mem_iff.mpr (List.mem_append_left _ (List.mem_append_left _ ht))

theorem Ledger.asked_of_dropped (ledger : Ledger l e log) {t : Ticket} (ht : t ∈ droppedIn log) :
    t ∈ askedIn log :=
  ledger.once.mem_iff.mpr (List.mem_append_left _ (List.mem_append_right _ ht))

theorem Ledger.not_settled (ledger : Ledger l e log) {r : PollRequest} (hr : r ∈ l.requests) :
    r.ticket ∉ settledIn log := fun settled =>
  (List.pairwise_append.mp ledger.distinct).2.2 _ (List.mem_append_left _ settled) _
    (List.mem_map_of_mem hr) rfl

/-- Removing a request by its number removes only that one. -/
theorem perm_cons_filter {rs : List PollRequest} {r : PollRequest} (hr : r ∈ rs)
    (distinct : rs.Pairwise (fun p q => p.ticket.id ≠ q.ticket.id)) :
    rs.Perm (r :: rs.filter (fun q => q.ticket.id ≠ r.ticket.id)) := by
  induction rs with
  | nil => exact absurd hr (by simp)
  | cons q qs ih =>
      obtain ⟨first, rest⟩ := List.pairwise_cons.mp distinct
      rcases List.mem_cons.mp hr with rfl | hr
      · have kept : ∀ p ∈ qs, decide (p.ticket.id ≠ r.ticket.id) = true := fun p hp =>
          decide_eq_true (first p hp).symm
        rw [List.filter_cons_of_neg (by simp), List.filter_eq_self.mpr kept]
      · rw [List.filter_cons_of_pos (by simpa using first r hr)]
        exact ((ih hr rest).cons q).trans (List.Perm.swap r q _)

theorem Ledger.perm_without (ledger : Ledger l e log) {r : PollRequest} (hr : r ∈ l.requests) :
    l.requests.Perm (r :: (l.without r).requests) := by
  have outstanding := (List.pairwise_append.mp ledger.distinct).2.1
  rw [List.pairwise_map] at outstanding
  exact perm_cons_filter hr outstanding

theorem Ledger.drop (ledger : Ledger l e log) {r : PollRequest} (hr : r ∈ l.requests)
    (aborted : r.aborted = true) :
    Ledger (l.dropAborted r) e (log ++ [.moved now ready (.dropped r.ticket)]) := by
  have asked : askedIn (log ++ [.moved now ready (.dropped r.ticket)]) = askedIn log := by
    simp [askedIn]
  have shown : shownIn (log ++ [.moved now ready (.dropped r.ticket)]) = shownIn log := by
    simp [shownIn]
  have dropped : droppedIn (log ++ [.moved now ready (.dropped r.ticket)]) =
      droppedIn log ++ [r.ticket] := by
    simp [droppedIn]
  have subset : ∀ q ∈ (l.without r).requests, q ∈ l.requests := fun q hq =>
    (List.mem_filter.mp hq).1
  constructor
  all_goals simp only [asked, shown, dropped, settledIn]
  · exact ledger.numbered
  · exact ledger.bounded
  · have moved := (ledger.perm_without hr).map (·.ticket)
    refine ledger.once.trans ((List.Perm.append_left _ moved).trans ?_)
    simp only [List.map_cons, List.append_assoc, List.singleton_append]
    exact List.Perm.refl _
  · exact fun q hq => ledger.awaited q (subset q hq)
  · exact fun q hq => ledger.overtaken q (subset q hq)
  · intro t ht
    rcases List.mem_append.mp ht with ht | ht
    · exact ledger.dropped t ht
    · obtain rfl := List.mem_singleton.mp ht
      exact ledger.overtaken r hr aborted
  · exact ledger.increasing
  · exact ledger.effective
  · exact ledger.issued
  · simp [dropAborted, without, ledger.superseded]
  · exact ledger.applied
  · exact ledger.failed

theorem Ledger.settle (ledger : Ledger l e log) {r : PollRequest} (hr : r ∈ l.requests)
    (unaborted : r.aborted = false) (response : Response) :
    Ledger (l.settle r (e.complete r.ticket response now).value.2)
      (e.complete r.ticket response now).value.1
      (log ++ [.moved now ready (.settled r.ticket (e.complete r.ticket response now).value.2)]) := by
  obtain ⟨last, awaited⟩ := ledger.awaited r hr unaborted
  obtain ⟨effect, issued, -⟩ :=
    Engine.complete_of_current (t := r.ticket) (decide_eq_true awaited) response now
  generalize (e.complete r.ticket response now).value.1 = e' at issued ⊢
  generalize (e.complete r.ticket response now).value.2 = outcome at effect ⊢
  have asked : askedIn (log ++ [.moved now ready (.settled r.ticket outcome)]) = askedIn log := by
    simp [askedIn]
  have shown : shownIn (log ++ [.moved now ready (.settled r.ticket outcome)]) =
      shownIn log ++ [(r.ticket, outcome)] := by
    simp [shownIn]
  have dropped : droppedIn (log ++ [.moved now ready (.settled r.ticket outcome)]) =
      droppedIn log := by
    simp [droppedIn]
  have subset : ∀ q ∈ (l.without r).requests, q ∈ l.requests := fun q hq =>
    (List.mem_filter.mp hq).1
  constructor
  all_goals simp only [asked, shown, dropped, settledIn, List.map_append, List.map_cons,
    List.map_nil]
  · exact ledger.numbered
  · exact issued ▸ ledger.bounded
  · have moved := (ledger.perm_without hr).map (·.ticket)
    refine ledger.once.trans ((List.Perm.append_left _ moved).trans ?_)
    simp only [List.map_cons, List.append_assoc, List.singleton_append]
    exact List.Perm.append_left _ List.perm_middle
  · -- The newest request is gone, so every one that is left is aborted.
    intro q hq unaborted
    have same := (ledger.awaited q (subset q hq) unaborted).1
    have eq : r.ticket = q.ticket := Option.some.inj (last.symm.trans same)
    exact absurd (List.mem_filter.mp hq).2 (by simp [eq])
  · exact fun q hq => ledger.overtaken q (subset q hq)
  · exact ledger.dropped
  · refine List.pairwise_append.mpr ⟨ledger.increasing, List.pairwise_singleton .., ?_⟩
    intro s hs t ht
    obtain rfl := List.mem_singleton.mp ht
    exact Ticket.id_lt_last ledger.numbered last (ledger.asked_of_settled hs)
      fun eq => ledger.not_settled hr (eq ▸ hs)
  · intro p hp
    rcases List.mem_append.mp hp with hp | hp
    · exact ledger.effective p hp
    · obtain rfl := List.mem_singleton.mp hp
      exact effect
  · exact (PollStats.issued_count ..).trans ledger.issued
  · exact (PollStats.superseded_count effect _).trans ledger.superseded
  · rw [List.countP_append, ← ledger.applied]
    exact PollStats.applied_count effect _ _
  · rw [List.countP_append, ← ledger.failed]
    exact PollStats.failed_count effect _ _

/-- Asking the next request keeps the ledger: whatever is under way is overtaken. -/
theorem Ledger.ask (ledger : Ledger l e log) :
    Ledger (l.takeTick e now).value.1 (l.takeTick e now).value.2.1
      (log ++ [.moved now ready (l.takeTick e now).value.2.2]) := by
  have taken : (l.takeTick e now).value =
      ({ dueTicks := l.dueTicks - 1
         requests := l.requests.map (fun r => { r with aborted := true }) ++
           [{ ticket := ⟨e.issued + 1, e.nextStart now, now⟩ }]
         stats := { l.stats with issued := l.stats.issued + 1 } },
        { e with issued := e.issued + 1, awaited := some (e.issued + 1) },
        .asked ⟨e.issued + 1, e.nextStart now, now⟩) := rfl
  rw [taken]
  generalize next : (⟨e.issued + 1, e.nextStart now, now⟩ : Ticket) = t
  have id : t.id = e.issued + 1 := by rw [← next]
  have asked : askedIn (log ++ [.moved now ready (.asked t)]) = askedIn log ++ [t] := by
    simp [askedIn]
  have shown : shownIn (log ++ [.moved now ready (.asked t)]) = shownIn log := by
    simp [shownIn]
  have dropped : droppedIn (log ++ [.moved now ready (.asked t)]) = droppedIn log := by
    simp [droppedIn]
  -- Whatever was asked before has a smaller number, so it is not the newest any more.
  have older : ∀ s ∈ askedIn log, s.id < t.id := fun s hs => by
    have := ledger.bounded s hs
    omega
  have overtaken : ∀ s ∈ askedIn log, some t ≠ some s := by
    rintro s hs eq
    obtain rfl := Option.some.inj eq
    exact Nat.lt_irrefl _ (older _ hs)
  constructor
  all_goals simp only [asked, shown, dropped, settledIn, List.getLast?_concat]
  · refine List.pairwise_append.mpr ⟨ledger.numbered, List.pairwise_singleton .., ?_⟩
    intro s hs t' ht'
    obtain rfl := List.mem_singleton.mp ht'
    exact older s hs
  · intro s hs
    rcases List.mem_append.mp hs with hs | hs
    · exact Nat.le_succ_of_le (ledger.bounded s hs)
    · obtain rfl := List.mem_singleton.mp hs
      exact Nat.le_of_eq id
  · have kept : (l.requests.map (fun r => { r with aborted := true })).map (·.ticket) =
        l.requests.map (·.ticket) := by
      simp
    rw [List.map_append, kept, ← List.append_assoc]
    exact ledger.once.append_right _
  · intro r hr unaborted
    rcases List.mem_append.mp hr with hr | hr
    · obtain ⟨q, -, rfl⟩ := List.mem_map.mp hr
      exact absurd unaborted (by simp)
    · obtain rfl := List.mem_singleton.mp hr
      exact ⟨rfl, by rw [id]⟩
  · intro r hr aborted
    rcases List.mem_append.mp hr with hr | hr
    · obtain ⟨q, hq, rfl⟩ := List.mem_map.mp hr
      exact overtaken q.ticket (ledger.asked_of_mem hq)
    · obtain rfl := List.mem_singleton.mp hr
      exact absurd aborted (by simp)
  · exact fun s hs => overtaken s (ledger.asked_of_dropped hs)
  · exact ledger.increasing
  · exact ledger.effective
  · rw [List.length_append, ledger.issued, List.length_singleton]
  · exact ledger.superseded
  · exact ledger.applied
  · exact ledger.failed

theorem Ledger.move (ledger : Ledger l e log) {moved : Logged (PollLoop × Engine × Move)}
    (step : l.step e now ready = some moved) :
    Ledger moved.value.1 moved.value.2.1 (log ++ [.moved now ready moved.value.2.2]) := by
  rcases step_cases step with
    ⟨r, hr, aborted, eq⟩ | ⟨r, hr, unaborted, answer, -, eq⟩ | ⟨-, -, eq⟩ <;> rw [eq]
  · exact ledger.drop hr aborted
  · exact ledger.settle hr unaborted answer.value
  · exact ledger.ask

theorem Run.ledger {start : Engine} (run : Run start l e log) : Ledger l e log := by
  induction run with
  | start => constructor <;> simp [askedIn, settledIn, shownIn, droppedIn]
  | fire run more ih => exact ih.of_quiet (List.Perm.refl _) rfl rfl rfl (by simp)
  | finish run more ih => exact ih.of_quiet (List.Perm.refl _) rfl rfl rfl (by simp)
  | shuffle run perm ih => exact ih.of_quiet perm rfl rfl rfl (by simp)
  | elsewhere run issued awaited ih =>
      exact ih.of_quiet (List.Perm.refl _) rfl issued awaited (by simp)
  | move run now ready step ih => exact ih.move step

end PollLoop
end MinerWatch
