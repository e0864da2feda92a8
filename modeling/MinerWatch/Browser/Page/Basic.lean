import MinerWatch.Browser.Storage
import MinerWatch.Clock
import MinerWatch.Device.Api
import MinerWatch.PollLoop.Basic
import MinerWatch.StatusBoard
/-!
A page with dashboards: what it consists of.

A dashboard is a handle on an engine. Its polling runs as a task of the page, and so
does each of its promises; a task does nothing until it is given a turn. All engines
share the page's storage, and all runs share its status board. Nothing here waits:
requests are sent and answered by separate actions, and time passes only when it is
told to.
-/

namespace MinerWatch.Browser

structure Run where
  engine : Nat
  /-- The number of the run on the status board. -/
  number : Nat
  aborted : Bool := false
  /-- The loop, once the run has had its first turn. -/
  loop : Option PollLoop := none

inductive Purpose where
  | backfill
  | extent
  deriving Repr, DecidableEq

/-- A promise that is not settled. -/
structure Pledge where
  number : Nat
  engine : Nat
  purpose : Purpose
  /-- Where the request started, once it is sent. -/
  start : Option Millis := none

inductive Task where
  | run (r : Run)
  | pledge (p : Pledge)
  | finished

/-- Who waits for an answer: a task, and in a run the ticket. -/
structure Waiter where
  task : Nat
  ticket : Nat
  deriving Repr, DecidableEq

structure SentRequest where
  url : String
  waiter : Option Waiter
  answer : Option Answer := none

structure Timer where
  task : Nat
  /-- When it ticks next, in milliseconds since the page was opened. -/
  due : Nat
  period : Nat

def Timer.renew (task : Nat) (t : Timer) : Timer :=
  if t.task = task then { t with due := t.due + t.period } else t

inductive PageFault where
  /-- The configuration is not in the expected form. -/
  | configuration
  | settings (f : SettingsFault)
  | storage (f : StorageFault)
  | host (f : HostFault)
  | history (f : HistoryFault)

def PageFault.message : PageFault → String
  | configuration => Json.refusalText
  | settings f => f.message
  | storage f => f.message
  | host f => f.message
  | history f => f.inDomain

inductive Settlement where
  | count (n : Nat)
  | extent (e : HistoryExtent)
  | failed (fault : PageFault)

/-- A dashboard: its engine, and its run while it is polling. -/
structure Dashboard where
  engine : Nat
  running : Option Nat := none
  /-- The number of its newest run on the status board. -/
  run : Nat := 0

structure Page where
  clock : Millis
  storage : Store
  access : Access
  /-- Milliseconds since the page was opened. -/
  elapsed : Nat := 0
  board : StatusBoard := {}
  engines : List Engine := []
  dashboards : List (String × Dashboard) := []
  tasks : List Task := []
  /-- Tasks that are to be given a turn, first come first served. -/
  queue : List Nat := []
  requests : List SentRequest := []
  timers : List Timer := []
  promises : Nat := 0
  settled : List (Nat × Settlement) := []
  log : Log := []

namespace Page

def component : Component := ⟨.presentation, "HashrateDashboard"⟩

def stamp (p : Page) (notices : List Notice) : Page :=
  { p with log := p.log.record p.clock notices }

def report (p : Page) (message : String) : Page :=
  p.stamp [⟨.info, component, message, none⟩]

def loadedNotice : Notice :=
  ⟨.info, ⟨.presentation, "Initialize"⟩, "🚀 Hashrate chart module loaded", none⟩

/-! ### Engines and tasks -/

/-- An engine, at work on the page's storage. -/
def engine? (p : Page) (i : Nat) : Option Engine :=
  p.engines[i]?.map fun e => { e with store := p.storage }

/-- Puts an engine back after its work, with what it did to the storage and to the log. -/
def putEngine (p : Page) (i : Nat) (e : Engine) (notices : List Notice) : Page :=
  { p.stamp notices with engines := p.engines.set i e, storage := e.store }

def putTask (p : Page) (i : Nat) (t : Task) : Page :=
  { p with tasks := p.tasks.set i t }

def spawn (p : Page) (t : Task) : Page :=
  { p with tasks := p.tasks ++ [t], queue := p.queue ++ [p.tasks.length] }

def wake (p : Page) (i : Nat) : Page :=
  if p.queue.contains i then p else { p with queue := p.queue ++ [i] }

def send (p : Page) (waiter : Waiter) (url : String) : Page :=
  let p := p.stamp [DeviceApi.sentNotice url]
  { p with requests := p.requests ++ [{ url, waiter := some waiter }] }

def forget (p : Page) (gone : Waiter → Bool) : Page :=
  { p with requests := p.requests.map fun r =>
      { r with waiter := r.waiter.filter fun w => !gone w } }

def answer? (p : Page) (w : Waiter) : Option Answer :=
  (p.requests.find? fun r => r.waiter = some w && r.answer.isSome).bind (·.answer)

/-! ### The host -/

/-- The page after its storage has other entries, another guard, or other access to both. -/
def rehost (p : Page) (storage : Store) (access : Access) : Page :=
  { p with storage, access }

def override (p : Page) (key : String) (value : Option String) : Page :=
  { p with storage := p.storage.override key value }

end Page
end MinerWatch.Browser
