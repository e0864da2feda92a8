import MinerWatch.Engine
/-!
The poll loop: one request for every tick, of which only the newest counts.

The loop moves when it is given a turn. A request that has finished, because it was
aborted or because its answer is ready, is accounted for before the next tick is
taken; a tick aborts the request under way and issues the next one. `step` is one
such move. What is ready is decided outside, as a function from ticket numbers.
-/

namespace MinerWatch

/-- How the requests of a loop ended so far. The counts are unbounded. Counters of 64 bits agree with
them below `2 ^ 64` requests, and those of a machine with words of 32 bits below `2 ^ 32`. -/
structure PollStats where
  issued : Nat := 0
  applied : Nat := 0
  superseded : Nat := 0
  failed : Nat := 0
  deriving Repr, DecidableEq

def PollStats.count (s : PollStats) : Outcome → PollStats
  | .updated _ _ => { s with applied := s.applied + 1 }
  | .rejected _ _ => { s with applied := s.applied + 1 }
  | .superseded _ => { s with superseded := s.superseded + 1 }
  | .failed _ => { s with failed := s.failed + 1 }

/-- The answers that are ready, by ticket number. Reading an answer may leave notices. -/
abbrev ReadyAnswers := Nat → Option (Logged Response)

/-- An issued request that is not accounted for yet. -/
structure PollRequest where
  ticket : Ticket
  aborted : Bool := false
  deriving Repr, DecidableEq

def PollRequest.finished (ready : ReadyAnswers) (r : PollRequest) : Bool :=
  r.aborted || (ready r.ticket.id).isSome

structure PollLoop where
  /-- Ticks that have fired and were not taken yet. -/
  dueTicks : Nat := 0
  /-- Requests that are not accounted for, oldest first. -/
  requests : List PollRequest := []
  stats : PollStats := {}
  deriving Repr, DecidableEq

namespace PollLoop

def component : Component := ⟨.application, "PollScheduler"⟩

/-- A loop at its start: the first tick is due at once. -/
def first : PollLoop := { dueTicks := 1 }

def tick (l : PollLoop) : PollLoop :=
  { l with dueTicks := l.dueTicks + 1 }

/-- What a move of the loop asks of its surroundings. -/
inductive Move where
  /-- A request was issued, and its answer is wanted. -/
  | asked (ticket : Ticket)
  /-- An aborted request was dropped. -/
  | dropped (ticket : Ticket)
  /-- An answer was taken, and the outcome is to be shown. -/
  | settled (ticket : Ticket) (outcome : Outcome)

def without (l : PollLoop) (r : PollRequest) : PollLoop :=
  { l with requests := l.requests.filter (fun q => q.ticket.id ≠ r.ticket.id) }

/-- Takes a tick: aborts what is under way and issues the next request. -/
def takeTick (l : PollLoop) (e : Engine) (now : Millis) : Logged (PollLoop × Engine × Move) := do
  let (e, ticket) ← e.issue now
  pure ({ dueTicks := l.dueTicks - 1
          requests := l.requests.map (fun r => { r with aborted := true }) ++ [{ ticket }]
          stats := { l.stats with issued := l.stats.issued + 1 } }, e, .asked ticket)

def takeAnswer (l : PollLoop) (e : Engine) (now : Millis) (r : PollRequest)
    (answer : Logged Response) : Logged (PollLoop × Engine × Move) := do
  let response ← answer
  let (e, outcome) ← e.complete r.ticket response now
  let l := l.without r
  pure ({ l with stats := l.stats.count outcome }, e, .settled r.ticket outcome)

/-- Drops an aborted request, which counts as superseded. -/
def dropAborted (l : PollLoop) (r : PollRequest) : PollLoop :=
  let l := l.without r
  { l with stats := { l.stats with superseded := l.stats.superseded + 1 } }

def step (l : PollLoop) (e : Engine) (now : Millis) (ready : ReadyAnswers) :
    Option (Logged (PollLoop × Engine × Move)) :=
  match l.requests.find? (PollRequest.finished ready) with
  | some r =>
    if r.aborted then some (pure (l.dropAborted r, e, .dropped r.ticket))
    else (ready r.ticket.id).map (l.takeAnswer e now r)
  | none => if l.dueTicks = 0 then none else some (l.takeTick e now)

/-- A bound on the moves that a loop can make before it waits. -/
def movesLeft (l : PollLoop) : Nat :=
  l.requests.length + 2 * l.dueTicks

theorem length_requests_without_lt {l : PollLoop} {r : PollRequest} (h : r ∈ l.requests) :
    (l.without r).requests.length < l.requests.length := by
  refine List.length_filter_lt_length_iff_exists.2 ⟨r, h, ?_⟩
  simp

/-- Every move leaves fewer moves, so a loop that may make all that are left comes to wait. -/
theorem movesLeft_lt_of_step {l : PollLoop} {e : Engine} {now : Millis} {ready : ReadyAnswers}
    {moved : Logged (PollLoop × Engine × Move)} (h : l.step e now ready = some moved) :
    moved.value.1.movesLeft < l.movesLeft := by
  unfold step at h
  split at h
  · rename_i r found
    have less := length_requests_without_lt (List.mem_of_find?_eq_some found)
    split at h
    · obtain rfl := Option.some.inj h
      simp only [Logged.value_pure, movesLeft, dropAborted, without] at less ⊢
      omega
    · obtain ⟨a, -, rfl⟩ := Option.map_eq_some_iff.1 h
      simp only [Logged.value_bind, Logged.value_pure, takeAnswer, movesLeft, without] at less ⊢
      omega
  · split at h
    · exact absurd h (by simp)
    · obtain rfl := Option.some.inj h
      simp only [Logged.value_bind, Logged.value_pure, takeTick, movesLeft, List.length_append,
        List.length_map, List.length_cons, List.length_nil]
      omega

def startNotice : Notice :=
  ⟨.info, component, "🔄 Poll loop started", none⟩

def stopNotice (s : PollStats) : Notice :=
  ⟨.info, component,
    "⏹️ Poll loop stopped: " ++ Decimal.natText s.issued ++ " issued, " ++ Decimal.natText s.applied
      ++ " applied, " ++ Decimal.natText s.superseded ++ " superseded, " ++ Decimal.natText s.failed
      ++ " failed", none⟩

end PollLoop
end MinerWatch
