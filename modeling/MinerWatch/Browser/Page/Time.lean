import MinerWatch.Browser.Page.Turn
/-!
Time on a page: the intervals of its runs tick, each at its moment.
-/

namespace MinerWatch.Browser.Page

/-- The timer that ticks first, and of several at once the oldest. -/
def firstTimer : List Timer → Option Timer
  | [] => none
  | t :: ts =>
    match firstTimer ts with
    | some u => if u.due < t.due then some u else some t
    | none => some t

/-- Lets time pass up to a moment at which nothing ticks before. -/
def passTo (p : Page) (moment : Nat) : Page :=
  { p with elapsed := moment, clock := Clock.advance p.clock (moment - p.elapsed).toUInt64 }

def fire (p : Page) (t : Timer) : Page :=
  let p : Page := { p with timers := p.timers.map (Timer.renew t.task) }
  match p.tasks[t.task]? with
  | some (.run r) =>
    (p.putTask t.task (.run { r with loop := r.loop.map PollLoop.tick })).wake t.task
  | _ => p

/-- Lets time pass until a moment. Every tick on the way happens at its time, and its run gets a turn. -/
def passUntil : Nat → Page → Nat → Page
  | 0, p, moment => p.passTo moment
  | fuel + 1, p, moment =>
    match firstTimer p.timers with
    | some t =>
      if t.due ≤ moment then passUntil fuel (((p.passTo t.due).fire t).runTasks) moment
      else p.passTo moment
    | none => p.passTo moment

/-- Lets time pass. No timer ticks more than once in a millisecond. -/
def advance (p : Page) (ms : Millis) : Page :=
  passUntil ((p.tasks.length + 1) * (ms.toNat + 1)) p (p.elapsed + ms.toNat)

end MinerWatch.Browser.Page
