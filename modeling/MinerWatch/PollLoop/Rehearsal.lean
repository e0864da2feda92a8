import MinerWatch.Clock
import MinerWatch.PollLoop.Basic
import MinerWatch.StatusBoard
/-!
Rehearsing a poll loop: a run over a script of ticks, clock changes and answers.

The answers are listed in the order of the requests. One may be held back until it
is released, and one that is missing never comes. When the script has ended the
loop waits for the request under way; if its answer never comes, the run hangs.
-/

namespace MinerWatch

structure ScriptedAnswer where
  response : Response
  /-- The answer is not ready before it is released. -/
  held : Bool

inductive ScriptEvent where
  | tick
  | setClock (time : Millis)
  | advance (delay : Millis)
  | release (index : Nat)

/-- What is seen when an outcome is shown. -/
structure Observation where
  outcome : Outcome
  board : StatusBoard
  time : Millis
  requests : Nat
  cursor : Option Millis

structure Rehearsal where
  answers : List (Option ScriptedAnswer)
  engine : Engine
  clock : Millis
  loop : PollLoop := {}
  board : StatusBoard := {}
  released : List Nat := []
  starts : List Millis := []
  observed : List Observation := []
  log : Log := []

namespace Rehearsal

/-- The answers that are ready now. Tickets count from one, the script from zero. -/
def ready (r : Rehearsal) : ReadyAnswers := fun id =>
  match r.answers[id - 1]? with
  | some (some a) => if a.held && !r.released.contains (id - 1) then none else some (pure a.response)
  | _ => none

def stamp (r : Rehearsal) (notices : List Notice) : Rehearsal :=
  { r with log := r.log.record r.clock notices }

def follow (r : Rehearsal) (moved : Logged (PollLoop × Engine × PollLoop.Move)) : Rehearsal :=
  let (loop, engine, move) := moved.value
  let r := { r.stamp moved.notices with loop, engine }
  match move with
  | .asked ticket => { r with starts := r.starts ++ [ticket.start] }
  | .dropped _ => r
  | .settled _ outcome =>
    let board := r.board.update outcome engine.series.size engine.series.latest?
    { r with board, observed := r.observed ++
      [⟨outcome, board, r.clock, r.starts.length, engine.series.cursor⟩] }

/-- Moves the loop at most `n` times, until it waits. -/
def settle : Nat → Rehearsal → Rehearsal
  | 0, r => r
  | n + 1, r =>
    match r.loop.step r.engine r.clock r.ready with
    | none => r
    | some moved => settle n (r.follow moved)

def turn (r : Rehearsal) : Rehearsal :=
  settle r.loop.movesLeft r

def play (r : Rehearsal) : ScriptEvent → Rehearsal
  | .tick => { r with loop := r.loop.tick }.turn
  | .setClock time => { r with clock := time }
  | .advance delay => { r with clock := Clock.advance r.clock delay }
  | .release index => { r with released := index :: r.released }.turn

/-- A run that is about to start with an engine, given the notices of its making. -/
def start (answers : List (Option ScriptedAnswer)) (clock : Millis) (engine : Logged Engine) : Rehearsal :=
  { answers, clock, engine := engine.value : Rehearsal }.stamp
    (engine.notices ++ [PollLoop.startNotice])

def hangs (r : Rehearsal) : Bool :=
  !r.loop.requests.isEmpty

/-- Plays a whole script and lets the loop come to its end, unless it hangs. -/
def run (r : Rehearsal) (events : List ScriptEvent) : Rehearsal :=
  let r := events.foldl play r
  if r.hangs then r else r.stamp [PollLoop.stopNotice r.loop.stats]

end Rehearsal
end MinerWatch
