import MinerWatch.Device.Info
import MinerWatch.Series.Archive
import MinerWatch.Series.Merge
import MinerWatch.Settings
/-!
The engine: it owns the series, keeps it in a store, and numbers its requests.

A request is a `Ticket`. Only the ticket that was issued last is awaited; its
answer is taken once, and any other answer is ignored. Every merge is followed by a
save, and a save that fails is only logged.
-/

namespace MinerWatch

structure Ticket where
  /-- The first ticket has number 1. A number never wraps around: it is that of a counter of 64 bits as
  long as fewer than `2 ^ 64` tickets are issued. -/
  id : Nat
  start : Millis
  issuedAt : Millis
  deriving Repr, DecidableEq

/-- What a request brought: the device's report, or why there is none. -/
abbrev Response := Except HostFault DeviceInfo

inductive Outcome where
  /-- The report was taken, and its history merged if it carried any. -/
  | updated (info : DeviceInfo) (report : Option MergeReport)
  /-- The report was taken, but its history had a fault and was left out. -/
  | rejected (info : DeviceInfo) (fault : HistoryFault)
  /-- The answer was to a ticket that is not awaited. -/
  | superseded (id : Nat)
  /-- There was no report. -/
  | failed (fault : HostFault)

def Outcome.info? : Outcome → Option DeviceInfo
  | updated info _ => some info
  | rejected info _ => some info
  | superseded _ => none
  | failed _ => none

/-- The engine and the store that it works on. -/
structure Engine where
  settings : Settings
  store : Store
  series : Series
  /-- How many tickets were issued, in unbounded arithmetic. Below `2 ^ 64` a counter of 64 bits agrees. -/
  issued : Nat := 0
  /-- The ticket whose answer is awaited. -/
  awaited : Option Nat := none
  /-- The last report taken, in the units that are shown. -/
  info : Option DeviceInfo := none

namespace Engine

def component : Component := ⟨.application, "TelemetrySync"⟩

def restore (store : Store) (settings : Settings) : Logged (Except SettingsFault Engine) :=
  match settings.fault? with
  | some fault => pure (.error fault)
  | none => do
    let series ← Archive.load settings.keys store
    Logged.note .info component
      ("🚀 Hydrated " ++ Decimal.natText series.size ++ " points, cursor " ++ cursorText series.cursor)
    pure (.ok { settings, store, series })

def nextStart (e : Engine) (now : Millis) : Millis :=
  e.settings.window.fetchStart e.series.cursor now

/-- Issues a ticket; it is awaited in place of any earlier one. -/
def issue (e : Engine) (now : Millis) : Logged (Engine × Ticket) := do
  let ticket : Ticket := ⟨e.issued + 1, e.nextStart now, now⟩
  Logged.note .debug component
    ("📡 Poll #" ++ Decimal.natText ticket.id ++ " from " ++ Decimal.natText ticket.start.toNat)
  pure ({ e with issued := ticket.id, awaited := some ticket.id }, ticket)

def isCurrent (e : Engine) (t : Ticket) : Bool :=
  e.awaited = some t.id

/-- Saves the series; a failure is logged. -/
def persist (e : Engine) : Logged Engine := do
  let (store, saved) ← Archive.save e.settings.keys e.series e.store
  match saved with
  | .ok () => pure ()
  | .error fault =>
    Logged.note .error component
      ("💾 Failed to persist series: " ++ (HostFault.storage fault).message)
  pure { e with store }

def absorb (e : Engine) (batch : Batch) (now : Millis) :
    Logged (Engine × Except HistoryFault MergeReport) := do
  let (series, result) ← e.series.merge e.settings.window batch now
  match result with
  | .error fault => pure (e, .error fault)
  | .ok report =>
    if report.skipped then pure (e, .ok report)
    else
      Logged.note .debug component
        ("📊 Imported " ++ Decimal.natText report.appended ++ " points, evicted "
          ++ Decimal.natText report.evicted ++ ", cursor " ++ cursorText report.cursor)
      let saved ← persist { e with series }
      pure (saved, .ok report)

def complete (e : Engine) (t : Ticket) (response : Response) (now : Millis) :
    Logged (Engine × Outcome) :=
  if !e.isCurrent t then do
    Logged.note .debug component
      ("⏭️ Ignoring response of superseded poll #" ++ Decimal.natText t.id)
    pure (e, .superseded t.id)
  else
    let e := { e with awaited := none }
    match response with
    | .error fault => do
      Logged.note .warn component
        ("❌ Poll #" ++ Decimal.natText t.id ++ " failed: " ++ fault.message)
      pure (e, .failed fault)
    | .ok report => do
      let info := { report with history := none }.inDisplayUnits
      let e := { e with info := some info }
      match report.history with
      | none => pure (e, .updated info none)
      | some batch =>
        let (e, result) ← e.absorb batch now
        match result with
        | .ok merged => pure (e, .updated info (some merged))
        | .error fault => pure (e, .rejected info fault)

def clear (e : Engine) : Logged Engine := do
  let store ← Archive.clear e.settings.keys e.store
  Logged.note .info component "🧹 Cleared series and storage"
  pure { e with series := .empty, store }

end Engine
end MinerWatch
