import MinerWatch.Browser.Page.Basic
/-!
The turns of a page's tasks.

A run makes all the moves that its loop has, and then waits. A run that is aborted
does nothing at its next turn but end, so an answer that comes after a stop finds
nobody who takes it. A promise sends its request at its first turn and is settled at
the turn after the answer.
-/

namespace MinerWatch.Browser.Page

def apiOf (e : Engine) : DeviceApi :=
  .ofOrigin e.settings.origin

def readyFor (p : Page) (task : Nat) : ReadyAnswers := fun ticket =>
  (p.answer? ⟨task, ticket⟩).map (DeviceApi.readAnswer DeviceInfo.record.codec)

def follow (p : Page) (task : Nat) (r : Run) (moved : Logged (PollLoop × Engine × PollLoop.Move)) : Page :=
  let (loop, e, move) := moved.value
  let p := (p.putEngine r.engine e moved.notices).putTask task (.run { r with loop := some loop })
  match move with
  | .asked ticket => p.send ⟨task, ticket.id⟩ ((apiOf e).infoUrl ticket.start)
  | .dropped ticket => p.forget (· = ⟨task, ticket.id⟩)
  | .settled ticket outcome =>
    let p := p.forget (· = ⟨task, ticket.id⟩)
    { p with board := p.board.update outcome e.series.size e.series.latest? }

/-- Moves a run's loop at most `n` times, until it waits. -/
def work : Nat → Page → Nat → Page
  | 0, p, _ => p
  | n + 1, p, task =>
    match p.tasks[task]? with
    | some (.run r) =>
      match r.loop, p.engine? r.engine with
      | some loop, some e =>
        match loop.step e p.clock (p.readyFor task) with
        | some moved => work n (p.follow task r moved) task
        | none => p
      | _, _ => p
    | _ => p

def finishRun (p : Page) (task : Nat) (r : Run) : Page :=
  let p := (p.report "⏹️ Polling stopped").putTask task .finished
  let p := p.forget (·.task = task)
  { p with
    timers := p.timers.filter (fun t => t.task ≠ task)
    board := p.board.endRun r.number }

/-- Starts the loop of a run, with a tick at once and an interval for the others. -/
def startRun (p : Page) (task : Nat) (r : Run) (e : Engine) : Page :=
  let period := e.settings.pollInterval.toNat
  let p := p.stamp [PollLoop.startNotice]
  { p.putTask task (.run { r with loop := some PollLoop.first }) with
    timers := p.timers ++ [⟨task, p.elapsed + period, period⟩] }

def turnRun (p : Page) (task : Nat) (r : Run) : Page :=
  if r.aborted then p.finishRun task r
  else
    match r.loop, p.engines[r.engine]? with
    | some loop, _ => work loop.movesLeft p task
    | none, some e => work PollLoop.first.movesLeft (p.startRun task r e) task
    | none, none => p

def sendPledge (p : Page) (task : Nat) (w : Pledge) (e : Engine) : Page :=
  let start := e.nextStart p.clock
  let url := match w.purpose with
    | .backfill => (apiOf e).historyUrl start
    | .extent => (apiOf e).extentUrl
  (p.send ⟨task, 0⟩ url).putTask task (.pledge { w with start := some start })

def settle (p : Page) (task number : Nat) (s : Settlement) : Page :=
  { p.putTask task .finished with settled := p.settled ++ [(number, s)] }

def takeBackfill (p : Page) (task : Nat) (w : Pledge) (e : Engine) (start : Millis) (a : Answer) : Page :=
  let read := DeviceApi.readAnswer Batch.record.codec a
  let p := p.stamp read.notices
  match read.value with
  | .error fault => p.settle task w.number (.failed (.host fault))
  | .ok batch =>
    let merged := e.absorb batch p.clock
    let p := p.putEngine w.engine merged.value.1 merged.notices
    match merged.value.2 with
    | .error fault => p.settle task w.number (.failed (.history fault))
    | .ok report =>
      let p := p.report ("📥 Backfilled " ++ Decimal.natText report.appended ++ " points from "
        ++ Decimal.natText start.toNat)
      p.settle task w.number (.count report.appended)

def takeExtent (p : Page) (task : Nat) (w : Pledge) (a : Answer) : Page :=
  let read := DeviceApi.readAnswer HistoryExtent.record.codec a
  let p := p.stamp read.notices
  match read.value with
  | .error fault => p.settle task w.number (.failed (.host fault))
  | .ok extent => p.settle task w.number (.extent extent)

def turnPledge (p : Page) (task : Nat) (w : Pledge) : Page :=
  match p.engine? w.engine, w.start with
  | none, _ => p
  | some e, none => p.sendPledge task w e
  | some e, some start =>
    match p.answer? ⟨task, 0⟩ with
    | none => p
    | some a =>
      let p := p.forget (·.task = task)
      match w.purpose with
      | .backfill => p.takeBackfill task w e start a
      | .extent => p.takeExtent task w a

def turn (p : Page) (task : Nat) : Page :=
  match p.tasks[task]? with
  | some (.run r) => p.turnRun task r
  | some (.pledge w) => p.turnPledge task w
  | some .finished => p
  | none => p

/-- Gives every woken task its turn. A turn wakes no other task. -/
def runTasks (p : Page) : Page :=
  p.queue.foldl turn { p with queue := [] }

end MinerWatch.Browser.Page
