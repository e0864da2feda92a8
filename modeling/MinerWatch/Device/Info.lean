import MinerWatch.Batch
import MinerWatch.Device.Pool
/-!
What the device says about itself, and how long its history is.

The report may lack fields or bring new ones, depending on the firmware. It also
carries the history that was asked for. `inDisplayUnits` converts it to the units that
are shown, and must be applied once.
-/

namespace MinerWatch

open Json

structure DeviceInfo where
  power : Float := 0.0
  voltage : Float := 0.0
  current : Float := 0.0
  temperature : Float := 0.0
  regulatorTemperature : Float := 0.0
  hashrate : Float := 0.0
  hashrateTime : UInt64 := 0
  hashrate10m : Float := 0.0
  hashrate1h : Float := 0.0
  hashrate1d : Float := 0.0
  bestDifficulty : String := ""
  bestSessionDifficulty : String := ""
  freeHeap : UInt64 := 0
  coreVoltage : Float := 0.0
  coreVoltageActual : Float := 0.0
  hostname : String := ""
  ssid : String := ""
  wifiStatus : String := ""
  sharesAccepted : UInt64 := 0
  sharesRejected : UInt64 := 0
  uptimeSeconds : UInt64 := 0
  chipCount : UInt32 := 0
  coresPerChip : UInt32 := 0
  chipModel : String := ""
  poolUrl : String := ""
  poolPort : UInt16 := 0
  fallbackUrl : String := ""
  fallbackPort : UInt16 := 0
  poolUser : String := ""
  frequency : Float := 0.0
  version : String := ""
  boardVersion : String := ""
  fanSpeed : Float := 0.0
  fanRpm : Float := 0.0
  boardTemperature1 : Option Float := none
  boardTemperature2 : Option Float := none
  overheatMode : UInt8 := 0
  history : Option Batch := none

namespace DeviceInfo

def record : Record DeviceInfo where
  blank := {}
  fields := [
    .optional "power" .float (·.power) (fun v r => { r with power := v }),
    .optional "voltage" .float (·.voltage) (fun v r => { r with voltage := v }),
    .optional "current" .float (·.current) (fun v r => { r with current := v }),
    .optional "temp" .float (·.temperature) (fun v r => { r with temperature := v }),
    .optional "vrTemp" .float (·.regulatorTemperature) (fun v r => { r with regulatorTemperature := v }),
    .optional "hashRate" .float (·.hashrate) (fun v r => { r with hashrate := v }),
    .optional "hashRateTimestamp" .word64 (·.hashrateTime) (fun v r => { r with hashrateTime := v }),
    .optional "hashRate_10m" .float (·.hashrate10m) (fun v r => { r with hashrate10m := v }),
    .optional "hashRate_1h" .float (·.hashrate1h) (fun v r => { r with hashrate1h := v }),
    .optional "hashRate_1d" .float (·.hashrate1d) (fun v r => { r with hashrate1d := v }),
    .optional "bestDiff" .text (·.bestDifficulty) (fun v r => { r with bestDifficulty := v }),
    .optional "bestSessionDiff" .text (·.bestSessionDifficulty)
      (fun v r => { r with bestSessionDifficulty := v }),
    .optional "freeHeap" .word64 (·.freeHeap) (fun v r => { r with freeHeap := v }),
    .optional "coreVoltage" .float (·.coreVoltage) (fun v r => { r with coreVoltage := v }),
    .optional "coreVoltageActual" .float (·.coreVoltageActual)
      (fun v r => { r with coreVoltageActual := v }),
    .optional "hostname" .text (·.hostname) (fun v r => { r with hostname := v }),
    .optional "ssid" .text (·.ssid) (fun v r => { r with ssid := v }),
    .optional "wifiStatus" .text (·.wifiStatus) (fun v r => { r with wifiStatus := v }),
    .optional "sharesAccepted" .word64 (·.sharesAccepted) (fun v r => { r with sharesAccepted := v }),
    .optional "sharesRejected" .word64 (·.sharesRejected) (fun v r => { r with sharesRejected := v }),
    .optional "uptimeSeconds" .word64 (·.uptimeSeconds) (fun v r => { r with uptimeSeconds := v }),
    .optional "asicCount" .word32 (·.chipCount) (fun v r => { r with chipCount := v }),
    .optional "smallCoreCount" .word32 (·.coresPerChip) (fun v r => { r with coresPerChip := v }),
    .optional "ASICModel" .text (·.chipModel) (fun v r => { r with chipModel := v }),
    .optional "stratumURL" .text (·.poolUrl) (fun v r => { r with poolUrl := v }),
    .optional "stratumPort" .word16 (·.poolPort) (fun v r => { r with poolPort := v }),
    .optional "fallbackStratumURL" .text (·.fallbackUrl) (fun v r => { r with fallbackUrl := v }),
    .optional "fallbackStratumPort" .word16 (·.fallbackPort) (fun v r => { r with fallbackPort := v }),
    .optional "stratumUser" .text (·.poolUser) (fun v r => { r with poolUser := v }),
    .optional "frequency" .float (·.frequency) (fun v r => { r with frequency := v }),
    .optional "version" .text (·.version) (fun v r => { r with version := v }),
    .optional "boardVersion" .text (·.boardVersion) (fun v r => { r with boardVersion := v }),
    .optional "fanspeed" .float (·.fanSpeed) (fun v r => { r with fanSpeed := v }),
    .optional "fanrpm" .float (·.fanRpm) (fun v r => { r with fanRpm := v }),
    .ifPresent "boardtemp1" .float (·.boardTemperature1) (fun v r => { r with boardTemperature1 := v }),
    .ifPresent "boardtemp2" .float (·.boardTemperature2) (fun v r => { r with boardTemperature2 := v }),
    .optional "overheat_mode" .word8 (·.overheatMode) (fun v r => { r with overheatMode := v }),
    .ifPresent "history" Batch.record.codec (·.history) (fun v r => { r with history := v })]

/-- What is shown before the device has answered. -/
def placeholder : DeviceInfo where
  power := 11.670000076293945
  voltage := 5208.75
  current := 2237.5
  temperature := 60.0
  regulatorTemperature := 45.0
  hashrate := 2775.61417065818
  hashrateTime := 1724398272483
  hashrate10m := 475.0
  hashrate1h := 475.0
  hashrate1d := 475.0
  bestDifficulty := "0"
  bestSessionDifficulty := "0"
  freeHeap := 200504
  coreVoltage := 1200.0
  coreVoltageActual := 1200.0
  hostname := "Bitaxe"
  ssid := "default"
  wifiStatus := "Connected!"
  sharesAccepted := 1
  sharesRejected := 0
  uptimeSeconds := 38
  chipCount := 1
  coresPerChip := 672
  chipModel := "BM1366"
  poolUrl := "public-pool.io"
  poolPort := 21496
  fallbackUrl := ""
  fallbackPort := 0
  poolUser := "bc1q99n3pu025yyu0jlywpmwzalyhm36tg5u37w20d.bitaxe-U1"
  frequency := 485.0
  version := "2.0"
  boardVersion := "204"
  fanSpeed := 100.0
  fanRpm := 0.0
  boardTemperature1 := some 30.0
  boardTemperature2 := some 40.0
  overheatMode := 0
  history := some Batch.empty

/-- A value rounded to a number of tenths or hundredths, a half away from zero. -/
def roundTo (factor value : Float) : Float :=
  (value * factor).round / factor

/-- The report in the units that are shown: volts and amperes for their thousandths, all rounded. -/
def inDisplayUnits (i : DeviceInfo) : DeviceInfo :=
  { i with
    power := roundTo 10.0 i.power
    voltage := roundTo 10.0 (i.voltage / 1000.0)
    current := roundTo 10.0 (i.current / 1000.0)
    coreVoltageActual := roundTo 100.0 (i.coreVoltageActual / 1000.0)
    coreVoltage := roundTo 100.0 (i.coreVoltage / 1000.0)
    temperature := roundTo 10.0 i.temperature
    regulatorTemperature := roundTo 10.0 i.regulatorTemperature }

/-- The hashrate in GH/s that clock and core count promise, its whole part within a word. A negative
clock promises nothing. -/
def nominalHashrate (i : DeviceInfo) : UInt64 :=
  let cores := i.coresPerChip.toFloat * i.chipCount.toFloat
  (i.frequency * (cores / 1000.0)).toUInt64

/-- The address that is paid: the pool user up to the first point. -/
def payee (i : DeviceInfo) : String :=
  String.ofList (i.poolUser.toList.takeWhile (· ≠ '.'))

def pool? (i : DeviceInfo) : Option Pool :=
  Pool.ofUrl? i.poolUrl

def poolLink? (i : DeviceInfo) : Option String :=
  i.pool?.map (·.statsPage i.payee)

end DeviceInfo

structure HistoryExtent where
  oldest : Millis := 0
  newest : Millis := 0
  count : UInt64 := 0

namespace HistoryExtent

def record : Record HistoryExtent where
  blank := {}
  fields := [
    .optional "firstTimestamp" .word64 (·.oldest) (fun v e => { e with oldest := v }),
    .optional "lastTimestamp" .word64 (·.newest) (fun v e => { e with newest := v }),
    .optional "numSamples" .word64 (·.count) (fun v e => { e with count := v })]

def isEmpty (e : HistoryExtent) : Bool :=
  e.count = 0

def span (e : HistoryExtent) : Millis :=
  Millis.subClamped e.newest e.oldest

end HistoryExtent
end MinerWatch
