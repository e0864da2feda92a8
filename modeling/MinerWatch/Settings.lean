import MinerWatch.Fault
import MinerWatch.Json.Record
import MinerWatch.Log
import MinerWatch.Series.Archive
import MinerWatch.Text.Query
import MinerWatch.Window
/-!
The settings of the engine, and what makes them usable.
-/

namespace MinerWatch

open Json

/-- What can be set. Everything has a default, so that any part may be given. -/
structure Settings where
  /-- The origin of the device in front of every path; empty for the page's own. -/
  origin : String := ""
  pollInterval : UInt32 := 5000
  retention : Millis := 3600000
  keys : ArchiveKeys := {}
  logLevel : Level := .info
  deriving Repr, DecidableEq

namespace Settings

/-- The written form of an origin, which is brought into shape when it is read. -/
def originCodec : Codec String where
  encode := Codec.text.encode
  decode v := (Codec.text.decode v).map Text.originOf

def record : Record Settings where
  blank := {}
  fields := [
    .optional "baseUri" originCodec (·.origin) (fun v s => { s with origin := v }),
    .optional "pollIntervalMs" .word32 (·.pollInterval) (fun v s => { s with pollInterval := v }),
    .optional "retentionWindowMs" .word64 (·.retention) (fun v s => { s with retention := v }),
    .optional "chartDataKey" .text (·.keys.chart) (fun v s => { s with keys.chart := v }),
    .optional "lastTimestampKey" .text (·.keys.cursor) (fun v s => { s with keys.cursor := v }),
    .optional "logLevel" Level.codec (·.logLevel) (fun v s => { s with logLevel := v })]

def withOrigin (s : Settings) (origin : String) : Settings :=
  { s with origin := Text.originOf origin }

def window (s : Settings) : Window := ⟨s.retention⟩

def isBlankKey (key : String) : Bool :=
  (Text.trim key.toList).isEmpty

def fault? (s : Settings) : Option SettingsFault :=
  if s.pollInterval = 0 then some (.invalid "pollIntervalMs must be greater than zero")
  else if s.retention = 0 then some (.invalid "retentionWindowMs must be greater than zero")
  else if isBlankKey s.keys.chart then some (.invalid "chartDataKey must not be blank")
  else if isBlankKey s.keys.cursor then some (.invalid "lastTimestampKey must not be blank")
  else if s.keys.chart = s.keys.cursor then some (.invalid "storage keys must differ")
  else none

end Settings
end MinerWatch
