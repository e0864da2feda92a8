import MinerWatch.Proofs.PollLoop.Ledger
/-!
The books of a poll loop.

`accounting` says what the log of a loop looks like at any moment: the engine is the one that the
log leaves behind, every request asked is shown, dropped or still outstanding, only the newest is
ever shown, with the outcome of completing it with its answer, and the counts agree with the log.
It reads this off the ledger, at the end of the log or at a move in the middle of it.
-/

namespace MinerWatch.PollLoop

variable {l : PollLoop} {e : Engine} {now : Millis} {ready : ReadyAnswers} {log : List Event}

/-! ### What a log shows -/

variable {start : Engine} {pre post : List Event}

theorem askedIn_append (log log' : List Event) : askedIn (log ++ log') = askedIn log ++ askedIn log' :=
  List.filterMap_append

theorem settledIn_append (log log' : List Event) :
    settledIn (log ++ log') = settledIn log ++ settledIn log' := by
  simp [settledIn, shownIn]

/-- The last event of a log that has `event` in it is `event` or comes after it. -/
theorem concat_eq_split {event last : Event} (eq : pre ++ event :: post = log ++ [last]) :
    (pre = log ∧ event = last) ∨ ∃ post', pre ++ event :: post' = log := by
  rcases List.eq_nil_or_concat post with rfl | ⟨post', x, rfl⟩
  · left
    obtain ⟨same, eq⟩ := List.append_inj' eq rfl
    exact ⟨same, List.singleton_inj.mp eq⟩
  · right
    rw [List.concat_eq_append, ← List.cons_append, ← List.append_assoc] at eq
    exact ⟨post', (List.append_inj' eq rfl).1⟩

/-- A move in the log of a run was made by a loop that a run had reached before. -/
theorem Run.at_move {move : Move} (run : Run start l e (pre ++ .moved now ready move :: post)) :
    ∃ l' e' moved, Run start l' e' pre ∧ l'.step e' now ready = some moved ∧
      moved.value.2.2 = move := by
  generalize eq : pre ++ .moved now ready move :: post = log at run
  induction run generalizing post with
  | start => exact absurd eq (by simp)
  | move run now ready step ih =>
      rcases concat_eq_split eq with ⟨rfl, same⟩ | ⟨post', eq⟩
      · obtain ⟨rfl, rfl, rfl⟩ := Event.moved.inj same
        exact ⟨_, _, _, run, step, rfl⟩
      · exact ih eq
  | fire run more ih | finish run more ih | shuffle run perm ih | elsewhere run issued awaited ih =>
      rcases concat_eq_split eq with ⟨-, same⟩ | ⟨post', eq⟩
      · exact absurd same (by simp)
      · exact ih eq

/-- An outcome in the log of a run is that of a request that was not aborted, when its answer was
ready. -/
theorem Run.at_settled {t : Ticket} {outcome : Outcome}
    (run : Run start l e (pre ++ .moved now ready (.settled t outcome) :: post)) :
    ∃ l' e' answer, Run start l' e' pre ∧
      (∃ r ∈ l'.requests, r.aborted = false ∧ r.ticket = t) ∧ ready t.id = some answer ∧
      outcome = (e'.complete t answer.value now).value.2 := by
  obtain ⟨l', e', moved, before, step, eq⟩ := run.at_move
  rcases step_cases step with
    ⟨_, -, -, value⟩ | ⟨r, hr, unaborted, answer, answered, value⟩ | ⟨-, -, value⟩ <;> rw [value] at eq
  · exact absurd eq (by simp)
  · obtain ⟨rfl, rfl⟩ := Move.settled.inj eq
    exact ⟨l', e', answer, before, ⟨r, hr, unaborted, rfl⟩, answered, rfl⟩
  · exact absurd eq (by simp [takeTick, Engine.issue])

/-- A ticket asked in the log of a run was issued by the engine, while no request had finished. -/
theorem Run.at_asked {t : Ticket} (run : Run start l e (pre ++ .moved now ready (.asked t) :: post)) :
    ∃ l' e', Run start l' e' pre ∧ (∀ r ∈ l'.requests, r.finished ready = false) ∧
      t = (e'.issue now).value.2 := by
  obtain ⟨l', e', moved, before, step, eq⟩ := run.at_move
  rcases step_cases step with
    ⟨_, -, -, value⟩ | ⟨_, -, -, _, -, value⟩ | ⟨waiting, -, value⟩ <;> rw [value] at eq
  · exact absurd eq (by simp)
  · exact absurd eq (by simp)
  · exact ⟨l', e', before, waiting, (Move.asked.inj eq).symm⟩

/-- A move that shows an outcome completes its ticket with an answer that is ready. -/
theorem Run.completes {t : Ticket} {outcome : Outcome}
    (run : Run start l e (pre ++ .moved now ready (.settled t outcome) :: post)) :
    ∃ answer, ready t.id = some answer ∧
      ((engineAfter start pre).complete t answer.value now).value =
        (engineAfter start (pre ++ [.moved now ready (.settled t outcome)]), outcome) := by
  obtain ⟨l', e', answer, before, -, answered, rfl⟩ := run.at_settled
  refine ⟨answer, answered, ?_⟩
  rw [engineAfter_concat, before.engine_eq, Event.effect, answered]

/-- A move that asks a request issues its ticket. -/
theorem Run.issues {t : Ticket}
    (run : Run start l e (pre ++ .moved now ready (.asked t) :: post)) :
    ((engineAfter start pre).issue now).value =
      (engineAfter start (pre ++ [.moved now ready (.asked t)]), t) := by
  obtain ⟨l', e', before, -, rfl⟩ := run.at_asked
  rw [engineAfter_concat, before.engine_eq, Event.effect]

/-- When a tick is taken, the newest answer was shown if it is ready. -/
theorem Run.settled_of_asked {t : Ticket}
    (run : Run start l e (pre ++ .moved now ready (.asked t) :: post)) {s : Ticket}
    (newest : (askedIn pre).getLast? = some s) (answered : (ready s.id).isSome = true) :
    s ∈ settledIn pre := by
  obtain ⟨l', e', before, waiting, -⟩ := run.at_asked
  have ledger := before.ledger
  have asked := ledger.once.mem_iff.mp (List.mem_of_getLast? newest)
  rw [List.mem_append, List.mem_append] at asked
  rcases asked with (settled | dropped) | outstanding
  · exact settled
  · exact absurd newest (ledger.dropped s dropped)
  · obtain ⟨r, hr, rfl⟩ := List.mem_map.mp outstanding
    have unfinished := waiting r hr
    simp [PollRequest.finished, answered] at unfinished

theorem settled_split {t : Ticket} (h : t ∈ settledIn log) :
    ∃ pre post now ready outcome, log = pre ++ .moved now ready (.settled t outcome) :: post := by
  obtain ⟨⟨_, outcome⟩, shown, rfl⟩ := List.mem_map.mp h
  obtain ⟨event, mem, eq⟩ := List.mem_filterMap.mp shown
  split at eq
  · obtain ⟨rfl, rfl⟩ := Prod.mk.inj (Option.some.inj eq)
    obtain ⟨pre, post, eq⟩ := List.append_of_mem mem
    exact ⟨pre, post, _, _, _, eq⟩
  · exact absurd eq (by simp)

/-- What is pending when a tick is taken is never shown. -/
theorem Run.not_settled_of_asked {t : Ticket}
    (run : Run start l e (pre ++ .moved now ready (.asked t) :: post)) {s : Ticket}
    (asked : s ∈ askedIn pre) (pending : s ∉ settledIn pre) :
    s ∉ settledIn (pre ++ .moved now ready (.asked t) :: post) := by
  intro settled
  have later : s ∈ settledIn post := by
    rw [settledIn_append] at settled
    exact (List.mem_append.mp settled).resolve_left pending
  obtain ⟨mid, rest, now', ready', outcome, rfl⟩ := settled_split later
  rw [← List.cons_append, ← List.append_assoc] at run
  obtain ⟨l', e', -, before, ⟨r, hr, unaborted, same⟩, -, -⟩ := run.at_settled
  have newest := (before.ledger.awaited r hr unaborted).1
  have numbered := before.ledger.numbered
  have eq : askedIn (pre ++ .moved now ready (.asked t) :: mid) =
      askedIn pre ++ t :: askedIn mid := askedIn_append ..
  rw [same, eq] at newest
  rw [eq] at numbered
  -- The newest at that point was asked after the tick, so it would be newer than itself.
  have mem : s ∈ t :: askedIn mid := by
    rw [List.getLast?_append, List.getLast?_cons, Option.some_or, ← List.getLast?_cons] at newest
    exact List.mem_of_getLast? newest
  exact Nat.lt_irrefl _ ((List.pairwise_append.mp numbered).2.2 s asked s mem)

/-- What the log of a loop that began on the engine `start` shows at any moment. -/
structure Accounted (start : Engine) (l : PollLoop) (e : Engine) (log : List Event) : Prop where
  /-- The engine is the one that the log leaves behind. -/
  engine : e = engineAfter start log
  /-- A request is asked with the ticket that the engine issues. -/
  asked_issued : ∀ {pre post now ready t}, log = pre ++ .moved now ready (.asked t) :: post →
    ((engineAfter start pre).issue now).value =
      (engineAfter start (pre ++ [.moved now ready (.asked t)]), t)
  /-- A request is shown once its answer is ready. The engine completes its ticket with this answer,
  and what is shown is the outcome. -/
  settled_completed : ∀ {pre post now ready t outcome},
    log = pre ++ .moved now ready (.settled t outcome) :: post →
    ∃ answer, ready t.id = some answer ∧
      ((engineAfter start pre).complete t answer.value now).value =
        (engineAfter start (pre ++ [.moved now ready (.settled t outcome)]), outcome)
  /-- At most one request is not aborted. -/
  one_open : l.requests.countP (!·.aborted) ≤ 1
  /-- A request that is not aborted is the newest. -/
  open_newest : ∀ r ∈ l.requests, r.aborted = false → (askedIn log).getLast? = some r.ticket
  /-- Each request is asked once, and is then shown, dropped or outstanding. -/
  asked_once : (askedIn log).Pairwise (fun a b => a.id < b.id)
  settled_once : (askedIn log).Perm (settledIn log ++ droppedIn log ++ l.requests.map (·.ticket))
  /-- Only requests that were overtaken are dropped. -/
  dropped_overtaken : ∀ t ∈ droppedIn log, (askedIn log).getLast? ≠ some t
  /-- No tick is taken while the answer to the newest request is ready and was not applied. -/
  answer_first : ∀ {pre post now ready t}, log = pre ++ .moved now ready (.asked t) :: post →
    ∀ s, (askedIn pre).getLast? = some s → (ready s.id).isSome = true → s ∈ settledIn pre
  /-- What is pending when a tick is taken is never applied. -/
  cut_off : ∀ {pre post now ready t}, log = pre ++ .moved now ready (.asked t) :: post →
    ∀ s ∈ askedIn pre, s ∉ settledIn pre → s ∉ settledIn log
  /-- Outcomes are shown in the order of their tickets, and none of them is stale. -/
  shown_increasing : (shownIn log).Pairwise (fun a b => a.1.id < b.1.id)
  shown_effective : ∀ p ∈ shownIn log, p.2.takesEffect = true
  /-- The counts agree with the log. -/
  issued : l.stats.issued = (askedIn log).length
  superseded : l.stats.superseded = (droppedIn log).length
  applied : l.stats.applied = (shownIn log).countP (·.2.info?.isSome)
  failed : l.stats.failed = (shownIn log).countP (·.2.info?.isNone)
  /-- A loop that stands still waits for a tick or for the answer to the newest request. -/
  waits : ∀ {e : Engine} {now ready}, l.step e now ready = none →
    l.dueTicks = 0 ∧ ∀ r ∈ l.requests, r.aborted = false ∧ ready r.ticket.id = none
  /-- At the end the books are balanced, and the newest request was applied. -/
  balanced : Returned l log →
    l.stats.issued = l.stats.applied + l.stats.superseded + l.stats.failed ∧
      (shownIn log).length = l.stats.applied + l.stats.failed ∧
      ∀ t, (askedIn log).getLast? = some t → t ∈ settledIn log

theorem Ledger.shown_length (ledger : Ledger l e log) :
    (shownIn log).length = l.stats.applied + l.stats.failed := by
  rw [ledger.applied, ledger.failed]
  have rest : ∀ p : Ticket × Outcome, decide (¬ p.2.info?.isSome = true) = p.2.info?.isNone := by
    intro p
    cases p.2.info? <;> rfl
  simpa only [rest] using
    List.length_eq_countP_add_countP (fun p : Ticket × Outcome => p.2.info?.isSome)

theorem Ledger.one_open (ledger : Ledger l e log) : l.requests.countP (!·.aborted) ≤ 1 := by
  rw [List.countP_eq_length_filter]
  have outstanding := (List.pairwise_append.mp ledger.distinct).2.1
  rw [List.pairwise_map] at outstanding
  have distinct := outstanding.filter (fun r => !r.aborted)
  cases eq : l.requests.filter (fun r => !r.aborted) with
  | nil => exact Nat.zero_le 1
  | cons p ps =>
      cases ps with
      | nil => exact Nat.le_refl 1
      | cons q qs =>
          have newest : ∀ r ∈ p :: q :: qs, (askedIn log).getLast? = some r.ticket := by
            intro r hr
            obtain ⟨mem, unaborted⟩ := List.mem_filter.mp (eq ▸ hr)
            exact (ledger.awaited r mem (by simpa using unaborted)).1
          have same : p.ticket = q.ticket :=
            Option.some.inj ((newest p (by simp)).symm.trans (newest q (by simp)))
          rw [eq] at distinct
          exact absurd (congrArg (·.id) same) ((List.pairwise_cons.mp distinct).1 q (by simp))

/-- **The books of a poll loop are complete.** Whatever ticks fire and whatever answers become ready,
each request asked has a ticket of its own and ends in one way: it is shown, once its answer is ready
and before the next tick is taken, or a newer one overtakes it and it is dropped. Outcomes are shown in
the order of their tickets, each of them the engine's own for that ticket and that answer, and nothing
else that the loop does reaches the engine but the tickets it issues. At the end the counts are
balanced, and the newest request was shown. -/
theorem accounting (run : Run start l e log) : Accounted start l e log := by
  have ledger := run.ledger
  refine
    { engine := run.engine_eq.symm
      asked_issued := ?_
      settled_completed := ?_
      one_open := ledger.one_open
      open_newest := fun r hr unaborted => (ledger.awaited r hr unaborted).1
      asked_once := ledger.numbered
      settled_once := ledger.once
      dropped_overtaken := ledger.dropped
      answer_first := ?_
      cut_off := ?_
      shown_increasing := ?_
      shown_effective := ledger.effective
      issued := ledger.issued
      superseded := ledger.superseded
      applied := ledger.applied
      failed := ledger.failed
      waits := waits_of_step_eq_none
      balanced := ?_ }
  · rintro pre post now ready t rfl
    exact run.issues
  · rintro pre post now ready t outcome rfl
    exact run.completes
  · rintro pre post now ready t rfl s newest answered
    exact run.settled_of_asked newest answered
  · rintro pre post now ready t rfl s asked pending
    exact run.not_settled_of_asked asked pending
  · have increasing := ledger.increasing
    rwa [settledIn, List.pairwise_map] at increasing
  · rintro ⟨-, -, nothing⟩
    have once : (askedIn log).Perm (settledIn log ++ droppedIn log) := by
      simpa [nothing] using ledger.once
    refine ⟨?_, ledger.shown_length, fun t newest => ?_⟩
    · have lengths := once.length_eq
      rw [List.length_append, settledIn, List.length_map, ledger.shown_length,
        ← ledger.issued, ← ledger.superseded] at lengths
      omega
    · rcases List.mem_append.mp (once.subset (List.mem_of_getLast? newest)) with settled | dropped
      · exact settled
      · exact absurd newest (ledger.dropped t dropped)

/-- Answers to these requests are ready. None of them was sent. -/
def lateAnswers (ids : List Nat) : ReadyAnswers := fun id =>
  if ids.contains id then some (pure (.error (.network (.unsent "lost")))) else none

/-- The second tick overtakes the first request, whose answer is ready too late; the ticks end
before the second request is answered. -/
theorem balanced_of_two_ticks : ∃ l e log, Run Engine.blank l e log ∧ Returned l log ∧
    (droppedIn log).map (·.id) = [1] ∧
    shownIn log = [(⟨2, 0, 6000⟩, .failed (.network (.unsent "lost")))] ∧
    e = engineAfter Engine.blank log ∧ e.awaited = none ∧
    l.stats.issued = l.stats.applied + l.stats.superseded + l.stats.failed := by
  have run := (Run.start : Run Engine.blank {} Engine.blank [])
    |>.fire (by simp)
    |>.move 1000 (lateAnswers []) rfl
    |>.fire (by simp)
    |>.move 6000 (lateAnswers []) rfl
    |>.move 6500 (lateAnswers [1]) rfl
    |>.finish (by simp)
    |>.move 7000 (lateAnswers [1, 2]) rfl
  have accounted := accounting run
  have ended := fun returned => (accounted.balanced returned).1
  exact ⟨_, _, _, run, ⟨by simp, rfl, rfl⟩, rfl, rfl, accounted.engine, rfl,
    ended ⟨by simp, rfl, rfl⟩⟩

end MinerWatch.PollLoop
