import MinerWatch.Fault
import MinerWatch.Json.Record
import MinerWatch.Sample
import MinerWatch.Window
/-!
Batches of history, as the device sends them.

A batch gives offsets from a base instant and, beside each offset, three raw
values. It may be malformed: the sequences may differ in length, an instant may lie
beyond the last one, and a value may not be finite once it is in H/s. `fault?`
finds the first fault, in that order; a batch without one is read by `samples`
without any clamping or loss.
-/

namespace MinerWatch

open Json

/-- A batch of history. An absent part is empty, since a device that has just started sends nothing. -/
structure Batch where
  base : Millis
  offsets : List Millis
  tenMin : List Float
  hour : List Float
  day : List Float

namespace Batch

def empty : Batch := ⟨0, [], [], [], []⟩

def record : Record Batch where
  blank := empty
  fields := [
    .optional "timestampBase" .word64 (·.base) (fun v b => { b with base := v }),
    .optional "timestamps" (.list .word64) (·.offsets) (fun v b => { b with offsets := v }),
    .optional "hashrate_10m" (.list .float) (·.tenMin) (fun v b => { b with tenMin := v }),
    .optional "hashrate_1h" (.list .float) (·.hour) (fun v b => { b with hour := v }),
    .optional "hashrate_1d" (.list .float) (·.day) (fun v b => { b with day := v })]

def isEmpty (b : Batch) : Bool :=
  b.offsets.isEmpty

def size (b : Batch) : Nat :=
  b.offsets.length

/-- The raw values beside each offset, as far as all three sequences reach. -/
def rows (b : Batch) : List (Float × Float × Float) :=
  b.tenMin.zip (b.hour.zip b.day)

def badValue? (row : Float × Float × Float) : Option Float :=
  [row.1, row.2.1, row.2.2].find? fun raw => !(scaleRaw raw).isFinite

def badRow? (index : Nat) : List (Float × Float × Float) → Option (Nat × Float)
  | [] => none
  | row :: rows =>
    match badValue? row with
    | some raw => some (index, raw)
    | none => badRow? (index + 1) rows

def aligned (b : Batch) : Bool :=
  b.tenMin.length = b.size && b.hour.length = b.size && b.day.length = b.size

def overflow? (b : Batch) : Option Millis :=
  b.offsets.find? fun offset => (Millis.add? b.base offset).isNone

/-- The first fault of a batch: lengths come before instants, and instants before values. -/
def fault? (b : Batch) : Option HistoryFault :=
  if !b.aligned then some (.lengths b.size b.tenMin.length b.hour.length b.day.length)
  else
    match b.overflow? with
    | some offset => some (.overflow b.base offset)
    | none => (badRow? 0 b.rows).map fun (index, raw) => .notFinite index raw

/-- The newest instant of a batch, unless it lies beyond the last one. -/
def newest? (b : Batch) : Option Millis :=
  b.offsets.max?.bind (Millis.add? b.base)

/-- The samples of a batch in its order. Without faults there is one for each offset. -/
def samples (b : Batch) : List Sample :=
  (b.offsets.zip b.rows).map fun (offset, row) =>
    ⟨Millis.addClamped b.base offset, scaleRaw row.1, scaleRaw row.2.1, scaleRaw row.2.2⟩

end Batch
end MinerWatch
