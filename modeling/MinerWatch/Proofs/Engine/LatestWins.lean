import MinerWatch.Proofs.Engine.Steps
/-!
The latest ticket wins.

An engine is run by its callers: they issue tickets, hand in answers to any of them in
any order and as often as they like, merge batches, clear, and meet a host that refuses
other writes every time. `latest_wins` says which answers count. The invariant behind it
(`Book`) reads the awaited ticket off the log: it is the one issued last, as long as no
answer to it was handed in.
-/

namespace MinerWatch

/-- The answer was taken, whether it brought a report or a failure. -/
def Outcome.takesEffect : Outcome → Bool
  | superseded _ => false
  | _ => true

/-- Among tickets with ever larger numbers, those before the last one have smaller numbers. -/
theorem Ticket.id_lt_last {ts : List Ticket} {s t : Ticket}
    (numbered : ts.Pairwise (fun a b => a.id < b.id)) (last : ts.getLast? = some t) (hs : s ∈ ts)
    (ne : s ≠ t) : s.id < t.id := by
  obtain ⟨init, rfl⟩ := List.getLast?_eq_some_iff.mp last
  rcases List.mem_append.mp hs with hs | hs
  · exact (List.pairwise_append.mp numbered).2.2 s hs t (by simp)
  · exact absurd (List.mem_singleton.mp hs) ne

namespace Engine

/-- What was done with an engine. -/
inductive Event where
  | issued (t : Ticket)
  | completed (t : Ticket) (outcome : Outcome)
  | absorbed (b : Batch)
  | cleared
  /-- The host changed its mind about what it refuses. -/
  | hosted

/-- The tickets issued in a log, oldest first. -/
def issuedIn (log : List Event) : List Ticket :=
  log.filterMap fun
    | .issued t => some t
    | _ => none

/-- The tickets whose answer took effect, in the order of the answers. -/
def takenIn (log : List Event) : List Ticket :=
  log.filterMap fun
    | .completed t outcome => if outcome.takesEffect then some t else none
    | _ => none

/-- An answer to the ticket was handed in. -/
def CompletedIn (log : List Event) (t : Ticket) : Prop :=
  ∃ outcome, .completed t outcome ∈ log

/-- The runs of an engine, with what was done in them. Any ticket issued so far may be completed. -/
inductive Run (start : Engine) : Engine → List Event → Prop where
  | start : Run start start []
  | issue {e log} (run : Run start e log) (now : Millis) :
      Run start (e.issue now).value.1 (log ++ [.issued (e.issue now).value.2])
  | complete {e log} (run : Run start e log) {t : Ticket} (known : t ∈ issuedIn log)
      (response : Response) (now : Millis) :
      Run start (e.complete t response now).value.1
        (log ++ [.completed t (e.complete t response now).value.2])
  | absorb {e log} (run : Run start e log) (b : Batch) (now : Millis) :
      Run start (e.absorb b now).value.1 (log ++ [.absorbed b])
  | clear {e log} (run : Run start e log) : Run start e.clear.value (log ++ [.cleared])
  | host {e log} (run : Run start e log) (guard : Guard) :
      Run start { e with store := { e.store with guard } } (log ++ [.hosted])

/-! ### What the steps do to the tickets -/

theorem tickets_absorb (e : Engine) (b : Batch) (now : Millis) :
    (e.absorb b now).value.1.issued = e.issued ∧ (e.absorb b now).value.1.awaited = e.awaited := by
  rcases e.absorb_cases b now with ⟨-, eq⟩ | ⟨_, -, -, eq⟩ | ⟨-, eq⟩ <;> rw [eq] <;> exact ⟨rfl, rfl⟩

/-- An answer to a ticket that is not awaited is ignored, and nothing else. -/
theorem complete_of_stale {e : Engine} {t : Ticket} (h : e.isCurrent t = false)
    (response : Response) (now : Millis) :
    (e.complete t response now).value = (e, .superseded t.id) := by
  rcases e.complete_cases t response now with ⟨-, eq⟩ | ⟨current, -⟩ | ⟨current, -⟩ | ⟨current, -⟩
  · exact eq
  all_goals exact absurd current (by simp [h])

/-- An answer to the awaited ticket takes effect, and no ticket is awaited after it. -/
theorem complete_of_current {e : Engine} {t : Ticket} (h : e.isCurrent t = true)
    (response : Response) (now : Millis) :
    (e.complete t response now).value.2.takesEffect = true ∧
      (e.complete t response now).value.1.issued = e.issued ∧
      (e.complete t response now).value.1.awaited = none := by
  rcases e.complete_cases t response now with
    ⟨stale, -⟩ | ⟨-, _, -, eq⟩ | ⟨-, _, -, -, eq⟩ | ⟨-, report, batch, -, -, rest⟩
  · exact absurd h (by simp [stale])
  · rw [eq]
    exact ⟨rfl, rfl, rfl⟩
  · rw [eq]
    exact ⟨rfl, rfl, rfl⟩
  · have tickets := tickets_absorb (e.informed (shownInfo report)) batch now
    rcases rest with ⟨_, -, eq⟩ | ⟨_, -, eq⟩ <;> rw [eq] <;> exact ⟨rfl, tickets⟩

/-! ### The invariant -/

/-- What the log says of the tickets of an engine. -/
structure Book (e : Engine) (log : List Event) : Prop where
  /-- Tickets are numbered from one on in the order in which they are issued. -/
  numbered : (issuedIn log).map (·.id) = List.range' 1 e.issued
  /-- The awaited ticket is the last one, unless an answer to it was handed in. -/
  current_iff : ∀ t ∈ issuedIn log,
    e.isCurrent t = true ↔ (issuedIn log).getLast? = some t ∧ ¬ CompletedIn log t
  /-- Only tickets that were issued are completed. -/
  known : ∀ t, CompletedIn log t → t ∈ issuedIn log
  /-- Answers take effect in the order of their tickets. -/
  increasing : (takenIn log).Pairwise (fun a b => a.id < b.id)

theorem Book.id_le {e : Engine} {log : List Event} (book : Book e log) {t : Ticket}
    (h : t ∈ issuedIn log) : t.id ≤ e.issued := by
  have mem : t.id ∈ (issuedIn log).map (·.id) := List.mem_map_of_mem h
  rw [book.numbered, List.mem_range'_1] at mem
  omega

theorem Book.pairwise_id {e : Engine} {log : List Event} (book : Book e log) :
    (issuedIn log).Pairwise (fun a b => a.id < b.id) := by
  have increasing : ((issuedIn log).map (·.id)).Pairwise (· < ·) := by
    rw [book.numbered]
    exact List.pairwise_lt_range'
  exact List.pairwise_map.mp increasing

theorem issuedIn_concat (log : List Event) (t : Ticket) :
    issuedIn (log ++ [.issued t]) = issuedIn log ++ [t] := by
  simp [issuedIn]

theorem taken_completed {log : List Event} {t : Ticket} (h : t ∈ takenIn log) :
    CompletedIn log t := by
  obtain ⟨event, mem, eq⟩ := List.mem_filterMap.mp h
  split at eq
  · rename_i t' outcome
    split at eq
    · obtain rfl := Option.some.inj eq
      exact ⟨outcome, mem⟩
    · exact absurd eq (by simp)
  · exact absurd eq (by simp)

/-- An event that concerns no ticket leaves the book as it is. -/
theorem Book.of_other {e e' : Engine} {log : List Event} {event : Event} (book : Book e log)
    (issued : e'.issued = e.issued) (awaited : e'.awaited = e.awaited)
    (notIssued : issuedIn (log ++ [event]) = issuedIn log)
    (notTaken : takenIn (log ++ [event]) = takenIn log)
    (notCompleted : ∀ t, CompletedIn (log ++ [event]) t ↔ CompletedIn log t) :
    Book e' (log ++ [event]) where
  numbered := by rw [notIssued, issued]; exact book.numbered
  current_iff t ht := by
    rw [notIssued] at ht ⊢
    rw [notCompleted, isCurrent, awaited]
    exact book.current_iff t ht
  known t ht := by rw [notIssued]; exact book.known t ((notCompleted t).mp ht)
  increasing := by rw [notTaken]; exact book.increasing

theorem Book.issue {e : Engine} {log : List Event} (book : Book e log) (now : Millis) :
    Book (e.issue now).value.1 (log ++ [.issued (e.issue now).value.2]) := by
  rw [value_issue]
  have completed : ∀ t : Ticket, CompletedIn (log ++ [.issued ⟨e.issued + 1, e.nextStart now, now⟩]) t ↔
      CompletedIn log t := by
    intro t
    simp [CompletedIn]
  refine ⟨?_, ?_, ?_, ?_⟩
  · rw [issuedIn_concat, List.map_append, book.numbered, List.range'_concat]
    simp [Nat.add_comm]
  · intro t ht
    rw [issuedIn_concat] at ht ⊢
    rw [completed, List.getLast?_concat]
    rcases List.mem_append.mp ht with ht | ht
    · have older := book.id_le ht
      have ne : t ≠ ⟨e.issued + 1, e.nextStart now, now⟩ := by
        rintro rfl
        exact absurd older (by simp)
      simp only [isCurrent, Option.some.injEq, decide_eq_true_eq, Ne.symm ne, false_and, iff_false]
      omega
    · obtain rfl := List.mem_singleton.mp ht
      have fresh : ¬ CompletedIn log ⟨e.issued + 1, e.nextStart now, now⟩ := fun h =>
        absurd (book.id_le (book.known _ h)) (by simp)
      simp [isCurrent, fresh]
  · intro t ht
    rw [issuedIn_concat]
    exact List.mem_append_left _ (book.known t ((completed t).mp ht))
  · have taken : takenIn (log ++ [.issued ⟨e.issued + 1, e.nextStart now, now⟩]) = takenIn log := by
      simp [takenIn]
    rw [taken]
    exact book.increasing

theorem completedIn_concat {log : List Event} {s t : Ticket} {outcome : Outcome} :
    CompletedIn (log ++ [.completed t outcome]) s ↔ CompletedIn log s ∨ s = t := by
  simp only [CompletedIn, List.mem_append, List.mem_singleton, Event.completed.injEq, exists_or]
  constructor
  · rintro (h | ⟨_, h, -⟩)
    · exact .inl h
    · exact .inr h
  · rintro (h | rfl)
    · exact .inl h
    · exact .inr ⟨outcome, rfl, rfl⟩

theorem issuedIn_completed (log : List Event) (t : Ticket) (outcome : Outcome) :
    issuedIn (log ++ [.completed t outcome]) = issuedIn log := by
  simp [issuedIn]

theorem Book.complete {e : Engine} {log : List Event} (book : Book e log) {t : Ticket}
    (ht : t ∈ issuedIn log) (response : Response) (now : Millis) :
    Book (e.complete t response now).value.1
      (log ++ [.completed t (e.complete t response now).value.2]) := by
  cases current : e.isCurrent t with
  | false =>
      -- Only the log changes, and the ticket was not the awaited one before either.
      rw [complete_of_stale current]
      refine ⟨?_, ?_, ?_, ?_⟩
      · rw [issuedIn_completed]
        exact book.numbered
      · intro s hs
        rw [issuedIn_completed] at hs ⊢
        rw [completedIn_concat, book.current_iff s hs]
        by_cases same : s = t
        · subst s
          have stale := mt (book.current_iff t ht).mpr (by simp [current])
          simp only [stale, or_true, not_true_eq_false, and_false]
        · simp [same]
      · intro s hs
        rw [issuedIn_completed]
        rcases completedIn_concat.mp hs with hs | rfl
        · exact book.known s hs
        · exact ht
      · have taken : takenIn (log ++ [.completed t (.superseded t.id)]) = takenIn log := by
          simp [takenIn, Outcome.takesEffect]
        rw [taken]
        exact book.increasing
  | true =>
      obtain ⟨effect, issued, awaited⟩ := complete_of_current current response now
      obtain ⟨last, fresh⟩ := (book.current_iff t ht).mp current
      -- The last ticket is now completed, so no ticket is current, as none is awaited.
      refine ⟨?_, ?_, ?_, ?_⟩
      · rw [issuedIn_completed, issued]
        exact book.numbered
      · intro s hs
        rw [issuedIn_completed] at hs ⊢
        rw [completedIn_concat, last, isCurrent, awaited]
        simp only [reduceCtorEq, decide_false, Bool.false_eq_true, Option.some.injEq, false_iff]
        rintro ⟨rfl, open_⟩
        exact open_ (.inr rfl)
      · intro s hs
        rw [issuedIn_completed]
        rcases completedIn_concat.mp hs with hs | rfl
        · exact book.known s hs
        · exact ht
      · have taken : takenIn (log ++ [.completed t (e.complete t response now).value.2]) =
            takenIn log ++ [t] := by
          simp [takenIn, effect]
        rw [taken]
        refine List.pairwise_append.mpr ⟨book.increasing, List.pairwise_singleton .., ?_⟩
        intro s hs t' ht'
        obtain rfl := List.mem_singleton.mp ht'
        have completed := taken_completed hs
        exact Ticket.id_lt_last book.pairwise_id last (book.known s completed)
          fun eq => fresh (eq ▸ completed)

theorem Run.book {start e : Engine} {log : List Event} (run : Run start e log)
    (issued : start.issued = 0) : Book e log := by
  induction run with
  | start =>
      refine ⟨by simp [issuedIn, issued], ?_, ?_, List.Pairwise.nil⟩
      · intro t ht
        exact absurd ht (by simp [issuedIn])
      · rintro t ⟨_, ht⟩
        exact absurd ht (by simp)
  | issue run now ih => exact ih.issue now
  | complete run known response now ih => exact ih.complete known response now
  | @absorb e log run b now ih =>
      have tickets := tickets_absorb e b now
      exact ih.of_other tickets.1 tickets.2 (by simp [issuedIn]) (by simp [takenIn])
        (by simp [CompletedIn])
  | clear run ih =>
      exact ih.of_other rfl rfl (by simp [issuedIn]) (by simp [takenIn]) (by simp [CompletedIn])
  | host run guard ih =>
      exact ih.of_other rfl rfl (by simp [issuedIn]) (by simp [takenIn]) (by simp [CompletedIn])

theorem issued_of_restore {store : Store} {settings : Settings} {e : Engine}
    (h : (restore store settings).value = .ok e) : e.issued = 0 := by
  obtain ⟨-, rfl⟩ := restore_eq_ok h
  rfl

/-- **The latest ticket wins.** At every point of a run, an answer to a ticket takes effect exactly
when that ticket was issued last and was not completed before; any other answer is reported as
superseded and leaves the whole engine as it is. The answers that took effect belong to tickets with
ever larger numbers. -/
theorem latest_wins {store : Store} {settings : Settings} {start e : Engine} {log : List Event}
    (restored : (restore store settings).value = .ok start) (run : Run start e log) :
    (∀ t ∈ issuedIn log, ∀ (response : Response) (now : Millis),
      ((e.complete t response now).value.2.takesEffect = true ↔
        (issuedIn log).getLast? = some t ∧ ¬ CompletedIn log t) ∧
      ((e.complete t response now).value.2.takesEffect = false →
        (e.complete t response now).value = (e, .superseded t.id))) ∧
    (takenIn log).Pairwise (fun a b => a.id < b.id) := by
  have book := run.book (issued_of_restore restored)
  refine ⟨fun t ht response now => ?_, book.increasing⟩
  rw [← book.current_iff t ht]
  cases current : e.isCurrent t with
  | false =>
      rw [complete_of_stale current]
      simp [Outcome.takesEffect]
  | true =>
      have effect := (complete_of_current current response now).1
      simp [effect]

/-- An engine on an empty store, with the settings that are used when nothing else is asked for. -/
def blank : Engine where
  settings := {}
  store := { entries := [] }
  series := .empty

theorem restore_blank : (restore { entries := [] } {}).value = .ok blank := by
  have sound : Settings.fault? {} = none := by decide
  simp only [restore, sound]
  rfl

/-- Two tickets are out: an answer to the first comes too late, one to the second is taken. -/
theorem second_of_two_wins :
    ∃ e : Engine, Run blank e [.issued ⟨1, 0, 1000⟩, .issued ⟨2, 0, 2000⟩] ∧
      (e.complete ⟨1, 0, 1000⟩ (.error (.network (.unsent "lost"))) 3000).value.2.takesEffect = false ∧
      (e.complete ⟨2, 0, 2000⟩ (.error (.network (.unsent "lost"))) 3000).value.2.takesEffect = true := by
  have run := (Run.start : Run blank blank []).issue 1000 |>.issue 2000
  have wins := (latest_wins restore_blank run).1
  refine ⟨_, run, ?_, ?_⟩
  · have late := (wins ⟨1, 0, 1000⟩ (.head _) (.error (.network (.unsent "lost"))) 3000).1
    refine Bool.eq_false_iff.mpr fun taken => ?_
    exact absurd (late.mp taken).1 (by decide)
  · refine (wins ⟨2, 0, 2000⟩ (.tail _ (.head _)) _ 3000).1.mpr ⟨rfl, ?_⟩
    rintro ⟨outcome, mem⟩
    exact absurd mem (by simp)

end Engine
end MinerWatch
