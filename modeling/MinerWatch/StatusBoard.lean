import MinerWatch.Engine
/-!
The status board: what a page shows of the polling, updated by hand.

Runs of polling are numbered. The board shows that polling is on from the begin of
a run until that run ends, unless a newer one has begun in between.
-/

namespace MinerWatch

structure StatusBoard where
  points : Nat := 0
  hashrate10m : Float := 0.0
  polling : Bool := false
  error : Option String := none
  info : Option DeviceInfo := none
  expected : UInt64 := 0
  poolLink : Option String := none
  /-- The number of the newest run. It is unbounded; a counter of 64 bits agrees with it below `2 ^ 64`
  runs. -/
  run : Nat := 0

namespace StatusBoard

def beginRun (b : StatusBoard) : StatusBoard :=
  { b with run := b.run + 1, polling := true }

/-- Ends a run; only the end of the newest one shows. -/
def endRun (b : StatusBoard) (run : Nat) : StatusBoard :=
  if b.run = run then { b with polling := false } else b

def showInfo (b : StatusBoard) (info : DeviceInfo) : StatusBoard :=
  { b with expected := info.nominalHashrate, poolLink := info.poolLink?, info := some info }

def showOutcome (b : StatusBoard) : Outcome → StatusBoard
  | .updated info _ => { b with error := none }.showInfo info
  | .rejected info fault => { b with error := some fault.inDomain }.showInfo info
  | .failed fault => { b with error := some fault.message }
  | .superseded _ => b

/-- Shows an outcome and the series after it. Without a sample the last hashrate stays. -/
def update (b : StatusBoard) (outcome : Outcome) (points : Nat) (latest : Option Sample) : StatusBoard :=
  let b := { b.showOutcome outcome with points }
  match latest with
  | some sample => { b with hashrate10m := sample.tenMin }
  | none => b

end StatusBoard
end MinerWatch
