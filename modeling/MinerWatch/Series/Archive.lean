import MinerWatch.Decimal.Reading
import MinerWatch.Series.Basic
import MinerWatch.Store
import MinerWatch.Text.Blank
import MinerWatch.Text.Quoted
/-!
Keeping a series in a store, under two keys: one for the samples, one for the cursor.

Saving writes the samples first and the cursor only after that succeeded. Loading
never fails: an entry that is absent, unreadable or malformed counts as empty, and
a warning says which it was.
-/

namespace MinerWatch

open Json

structure StoredChart where
  labels : List Millis
  tenMin : List Float
  hour : List Float
  day : List Float

/-- The written form of stored samples. An absent column is empty. -/
def StoredChart.record : Record StoredChart where
  blank := ⟨[], [], [], []⟩
  fields := [
    .optional "labels" (.list .word64) (·.labels) (fun v c => { c with labels := v }),
    .optional "dataData10m" (.list .float) (·.tenMin) (fun v c => { c with tenMin := v }),
    .optional "dataData1h" (.list .float) (·.hour) (fun v c => { c with hour := v }),
    .optional "dataData1d" (.list .float) (·.day) (fun v c => { c with day := v })]

def StoredChart.ofSeries (s : Series) : StoredChart where
  labels := s.chart.labels
  tenMin := s.chart.tenMin
  hour := s.chart.hour
  day := s.chart.day

/-- The two keys under which a series is kept. -/
structure ArchiveKeys where
  chart : String := "chartData"
  cursor : String := "lastTimestamp"
  deriving Repr, DecidableEq

namespace Archive

def component : Component := ⟨.domain, "SeriesStore"⟩

/-- The instant that a stored cursor denotes: a word, or a float whose fraction is dropped. -/
def readCursor? (raw : String) : Option Millis :=
  let cs := Text.trim raw.toList
  match Decimal.readWord? cs with
  | some word => some word
  | none => ((Decimal.readFloat? cs).filter fun x => x.isFinite && 0.0 ≤ x).map Float.toUInt64

def writeCursor (c : Millis) : String :=
  Decimal.natText c.toNat

def writeChart (s : Series) : String :=
  StoredChart.record.codec.write (.ofSeries s)

def loadCursor (keys : ArchiveKeys) (store : Store) : Logged (Option Millis) :=
  match store.read? keys.cursor with
  | none => pure none
  | some raw =>
    match readCursor? raw with
    | some cursor => pure (some cursor)
    | none => do
      Logged.note .warn component
        ("⚠️ Ignoring unreadable '" ++ keys.cursor ++ "': " ++ Text.quote raw)
      pure none

/-- The stored samples that a text denotes; none at all when it is unreadable. -/
def readChart (keys : ArchiveKeys) (raw : String) : Logged StoredChart :=
  match StoredChart.record.codec.read raw with
  | some chart => pure chart
  | none => do
    Logged.note .warn component ("⚠️ Ignoring unreadable '" ++ keys.chart ++ "': " ++ refusalText)
    pure StoredChart.record.blank

def load (keys : ArchiveKeys) (store : Store) : Logged Series := do
  let cursor ← loadCursor keys store
  match store.read? keys.chart with
  | none => pure (Series.atCursor cursor)
  | some raw =>
    let chart ← readChart keys raw
    match Series.ofColumns chart.labels chart.tenMin chart.hour chart.day cursor with
    | .ok series =>
      Logged.note .info component
        ("💾 Restored " ++ Decimal.natText series.size ++ " points, cursor " ++ cursorText cursor)
      pure series
    | .error fault =>
      Logged.note .warn component
        ("⚠️ Discarding malformed '" ++ keys.chart ++ "': " ++ fault.message)
      pure (Series.atCursor cursor)

/-- The store after writing a series into it. The samples go first; without a cursor its entry is removed. -/
def save (keys : ArchiveKeys) (s : Series) (store : Store) : Logged (Store × Except StorageFault Unit) :=
  match store.write keys.chart (writeChart s) with
  | .error fault => pure (store, .error fault)
  | .ok written =>
    match s.cursor with
    | none => do
      let removed ← written.remove keys.cursor
      pure (removed, .ok ())
    | some cursor =>
      match written.write keys.cursor (writeCursor cursor) with
      | .error fault => pure (written, .error fault)
      | .ok store => pure (store, .ok ())

def clear (keys : ArchiveKeys) (store : Store) : Logged Store := do
  let store ← store.remove keys.chart
  store.remove keys.cursor

end Archive
end MinerWatch
