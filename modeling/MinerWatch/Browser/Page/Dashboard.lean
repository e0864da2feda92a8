import MinerWatch.Browser.Page.Turn
/-!
What can be done with the dashboards of a page, and what can be read off them.

Making a dashboard, starting, stopping and clearing it take effect at once. What they
set going waits for its turn.
-/

namespace MinerWatch.Browser

structure DashboardView where
  running : Bool
  chart : Chart
  latest : Option Sample
  info : Option DeviceInfo
  /-- The hashrate in GH/s that the last report promises. -/
  expected : Option Float
  poolLink : Option String
  cursor : Option Float
  nextStart : Float

namespace Page

def dashboard? (p : Page) (name : String) : Option Dashboard :=
  p.dashboards.lookup name

def putDashboard (p : Page) (name : String) (d : Dashboard) : Page :=
  { p with dashboards := (name, d) :: p.dashboards.filter (fun e => e.1 ≠ name) }

/-- The settings that a configuration denotes; the default ones when there is none. -/
def readSettings? (config : Option String) : Option Settings :=
  match config with
  | none => some {}
  | some text => Settings.record.codec.read text

/-- Stops the polling of a dashboard. Its run is aborted and ends at its next turn. -/
def halt (p : Page) (d : Dashboard) : Page :=
  match d.running with
  | none => p
  | some task =>
    let p := match p.tasks[task]? with
      | some (.run r) => (p.putTask task (.run { r with aborted := true })).wake task
      | _ => p
    { p with board := p.board.endRun d.run }

def discard (p : Page) (name : String) : Page :=
  match p.dashboard? name with
  | none => p
  | some d => { p.halt d with dashboards := p.dashboards.filter (fun e => e.1 ≠ name) }

/-- Makes a dashboard; one of the same name is taken off after that succeeded. -/
def create (p : Page) (name : String) (config : Option String) : Page × Except PageFault Unit :=
  match readSettings? config with
  | none => (p, .error .configuration)
  | some settings =>
    match p.access.fault? with
    | some fault => (p, .error (.storage fault))
    | none =>
      let made := Engine.restore p.storage settings
      let p := p.stamp made.notices
      match made.value with
      | .error fault => (p, .error (.settings fault))
      | .ok e =>
        let p := p.report ("📊 Dashboard ready for '" ++ settings.origin ++ "' with "
          ++ Decimal.natText e.series.size ++ " stored points")
        let i := p.engines.length
        let p := { p with engines := p.engines ++ [e] }.discard name
        (p.putDashboard name { engine := i }, .ok ())

def start (p : Page) (name : String) (d : Dashboard) : Page :=
  if d.running.isSome then p
  else
    let board := p.board.beginRun
    let task := p.tasks.length
    { p with board }.spawn (.run { engine := d.engine, number := board.run })
      |>.putDashboard name { d with running := some task, run := board.run }

def stop (p : Page) (name : String) (d : Dashboard) : Page :=
  (p.halt d).putDashboard name { d with running := none }

def clear (p : Page) (d : Dashboard) : Page :=
  match p.engine? d.engine with
  | none => p
  | some e =>
    let cleared := e.clear
    let p := p.putEngine d.engine cleared.value cleared.notices
    { p with board := { p.board with points := 0 } }

def pledge (p : Page) (d : Dashboard) (purpose : Purpose) : Page × Nat :=
  ({ p with promises := p.promises + 1 }.spawn
    (.pledge { number := p.promises, engine := d.engine, purpose }), p.promises)

/-- Answers a request, if somebody still waits for that. -/
def respond (p : Page) (index : Nat) (a : Answer) : Page × Bool :=
  match p.requests[index]? with
  | some { url, waiter := some w, answer := none } =>
    ({ p with requests := p.requests.set index { url, waiter := some w, answer := some a } }.wake w.task,
      true)
  | _ => (p, false)

/-- A dashboard as it is seen now. Instants are shown as floats. -/
def view? (p : Page) (d : Dashboard) : Option DashboardView :=
  (p.engine? d.engine).map fun e =>
    { running := d.running.isSome
      chart := e.series.chart
      latest := e.series.latest?
      info := e.info
      expected := e.info.map (·.nominalHashrate.toFloat)
      poolLink := e.info.bind (·.poolLink?)
      cursor := e.series.cursor.map UInt64.toFloat
      nextStart := (e.nextStart p.clock).toFloat }

end Page
end MinerWatch.Browser
