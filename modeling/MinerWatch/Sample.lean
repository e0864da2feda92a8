import MinerWatch.Json.Record
import MinerWatch.Millis
/-!
One sample of the device's hashrate, and samples as the curves of a chart.
-/

namespace MinerWatch

open Json

/-- The three averages that the device reports for one instant, in H/s. -/
structure Sample where
  time : Millis
  tenMin : Float
  hour : Float
  day : Float

def Sample.record : Record Sample where
  blank := ⟨0, 0.0, 0.0, 0.0⟩
  fields := [
    .needed "timestamp" .word64 (·.time) (fun v s => { s with time := v }),
    .needed "hashrate10m" .float (·.tenMin) (fun v s => { s with tenMin := v }),
    .needed "hashrate1h" .float (·.hour) (fun v s => { s with hour := v }),
    .needed "hashrate1d" .float (·.day) (fun v s => { s with day := v })]

/-- Samples column by column, as a chart takes them. -/
structure Chart where
  labels : List Millis
  tenMin : List Float
  hour : List Float
  day : List Float
  size : UInt64

def Chart.record : Record Chart where
  blank := ⟨[], [], [], [], 0⟩
  fields := [
    .needed "labels" (.list .word64) (·.labels) (fun v c => { c with labels := v }),
    .needed "hashrate10m" (.list .float) (·.tenMin) (fun v c => { c with tenMin := v }),
    .needed "hashrate1h" (.list .float) (·.hour) (fun v c => { c with hour := v }),
    .needed "hashrate1d" (.list .float) (·.day) (fun v c => { c with day := v }),
    .needed "len" .word64 (·.size) (fun v c => { c with size := v })]

def Chart.ofSamples (ss : List Sample) : Chart where
  labels := ss.map (·.time)
  tenMin := ss.map (·.tenMin)
  hour := ss.map (·.hour)
  day := ss.map (·.day)
  size := ss.length.toUInt64

end MinerWatch
