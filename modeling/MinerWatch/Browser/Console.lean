import MinerWatch.Clock
import MinerWatch.Log
/-!
The console of a browser: which lines it takes, and by which of its methods.
-/

namespace MinerWatch

def Level.consoleMethod : Level → String
  | .trace => "debug"
  | .debug => "debug"
  | .info => "info"
  | .warn => "warn"
  | .error => "error"

/-- A console that leaves out what is less serious than a level. -/
structure Console where
  least : Level
  deriving Repr, DecidableEq

namespace Console

def production : Console := ⟨.info⟩

def development : Console := ⟨.debug⟩

def takes (c : Console) (l : Level) : Bool :=
  c.least.rank ≤ l.rank

def dropped (c : Console) : List Level :=
  Level.all.filter fun l => !c.takes l

/-- The method that is called for an entry and the line that it is given, if the console takes it. -/
def write? (c : Console) (e : Entry) : Option (String × String) :=
  if c.takes e.notice.level then some (e.notice.level.consoleMethod, e.text Clock.timeOfDay) else none

end Console
end MinerWatch
