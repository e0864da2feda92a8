import MinerWatch.Device.Info
import MinerWatch.Proofs.Json.Codec
/-!
The device's report, written and read again.

Words and texts come back as they are, whatever they hold; fields that are left out come back absent; and
a history that is there comes back as one, even an empty one. Only a float may come back as another
one (`reread`), so a report is read as it was exactly if each of its floats is
(`report_is_read_back`).
-/

namespace MinerWatch

open Json

/-- The float that is read where this one was written. -/
def reread (x : Float) : Float :=
  (Codec.float.read (Codec.float.write x)).getD x

theorem returns_reread {x : Float} (h : x.isFinite = true) : Returns .float x (reread x) := by
  obtain ⟨y, returns, -⟩ := Codec.returns_float h
  have same : reread x = y := by rw [reread, returns.read_write, Option.getD_some]
  exact same ▸ returns

theorem read_float {x : Float} (h : x.isFinite = true) :
    Codec.float.read (Codec.float.write x) = some (reread x) :=
  (returns_reread h).read_write

theorem returns_column {xs : List Float} {f : Float → Float} (h : ∀ x ∈ xs, Returns .float x (f x)) :
    Returns (.list .float) xs (xs.map f) := by
  apply Codec.returns_list
  rw [List.forall₂_map_right_iff]
  exact List.forall₂_same.mpr h

theorem map_eq_self_iff {α : Type} {f : α → α} {xs : List α} :
    xs.map f = xs ↔ ∀ x ∈ xs, f x = x := by
  simpa using List.map_inj_left (f := f) (g := id) (l := xs)

theorem option_map_eq_self_iff {α : Type} {f : α → α} {x : Option α} :
    x.map f = x ↔ ∀ y ∈ x.toList, f y = y := by
  cases x <;> simp

/-! ### The history -/

namespace Batch

/-- All floats of a batch. -/
def floats (b : Batch) : List Float :=
  b.tenMin ++ b.hour ++ b.day

def mapFloats (f : Float → Float) (b : Batch) : Batch :=
  { b with tenMin := b.tenMin.map f, hour := b.hour.map f, day := b.day.map f }

variable {b : Batch} {f : Float → Float}

theorem mapFloats_eq_self_iff : b.mapFloats f = b ↔ ∀ x ∈ b.floats, f x = x := by
  rcases b with ⟨base, offsets, tenMin, hour, day⟩
  simp only [mapFloats, floats, mk.injEq, true_and, List.forall_mem_append, and_assoc,
    map_eq_self_iff]

theorem returns_record (law : ∀ x ∈ b.floats, Returns .float x (f x)) :
    Returns record.codec b (b.mapFloats f) := by
  simp only [floats, List.forall_mem_append, and_assoc] at law
  obtain ⟨tenMin, hour, day⟩ := law
  exact Record.returns_of_rereads (by decide) <|
    .optional (Codec.returns_word64 b.base) <|
    .optional (Codec.returns_words b.offsets) <|
    .optional (returns_column tenMin) <|
    .optional (returns_column hour) <|
    .optional (returns_column day) .nil

end Batch

/-! ### The report -/

namespace DeviceInfo

/-- All floats of a report, those of its history included. -/
def floats (i : DeviceInfo) : List Float :=
  [i.power, i.voltage, i.current, i.temperature, i.regulatorTemperature, i.hashrate, i.hashrate10m,
    i.hashrate1h, i.hashrate1d, i.coreVoltage, i.coreVoltageActual, i.frequency, i.fanSpeed, i.fanRpm] ++
  i.boardTemperature1.toList ++ i.boardTemperature2.toList ++ i.history.toList.flatMap Batch.floats

def mapFloats (f : Float → Float) (i : DeviceInfo) : DeviceInfo :=
  { i with
    power := f i.power
    voltage := f i.voltage
    current := f i.current
    temperature := f i.temperature
    regulatorTemperature := f i.regulatorTemperature
    hashrate := f i.hashrate
    hashrate10m := f i.hashrate10m
    hashrate1h := f i.hashrate1h
    hashrate1d := f i.hashrate1d
    coreVoltage := f i.coreVoltage
    coreVoltageActual := f i.coreVoltageActual
    frequency := f i.frequency
    fanSpeed := f i.fanSpeed
    fanRpm := f i.fanRpm
    boardTemperature1 := i.boardTemperature1.map f
    boardTemperature2 := i.boardTemperature2.map f
    history := i.history.map (·.mapFloats f) }

variable {i : DeviceInfo} {f : Float → Float}

theorem mapFloats_eq_self_iff : i.mapFloats f = i ↔ ∀ x ∈ i.floats, f x = x := by
  have history : (∀ b ∈ i.history.toList, b.mapFloats f = b) ↔
      ∀ x ∈ i.history.toList.flatMap Batch.floats, f x = x := by
    simp only [Batch.mapFloats_eq_self_iff, List.mem_flatMap]
    exact ⟨fun h x ⟨b, mem, inside⟩ => h b mem x inside, fun h b mem x inside => h x ⟨b, mem, inside⟩⟩
  cases i
  simp only [mapFloats, floats, mk.injEq, option_map_eq_self_iff, history, List.forall_mem_append,
    List.forall_mem_cons, List.not_mem_nil, IsEmpty.forall_iff, implies_true, true_and, and_assoc]

theorem distinct_names : (record.fields.map (·.name)).Nodup := by
  decide

theorem returns_record (law : ∀ x ∈ i.floats, Returns .float x (f x)) :
    Returns record.codec i (i.mapFloats f) := by
  have present (x : Float) (mem : x ∈ i.floats) :
      Returns .float x (f x) ∧ Codec.float.encode x ≠ .null :=
    ⟨law x mem, Codec.encode_float_ne_null (Codec.finite_of_returns (law x mem))⟩
  refine Record.returns_of_rereads distinct_names <|
    .optional (law i.power (by simp [floats])) <|
    .optional (law i.voltage (by simp [floats])) <|
    .optional (law i.current (by simp [floats])) <|
    .optional (law i.temperature (by simp [floats])) <|
    .optional (law i.regulatorTemperature (by simp [floats])) <|
    .optional (law i.hashrate (by simp [floats])) <|
    .optional (Codec.returns_word64 i.hashrateTime) <|
    .optional (law i.hashrate10m (by simp [floats])) <|
    .optional (law i.hashrate1h (by simp [floats])) <|
    .optional (law i.hashrate1d (by simp [floats])) <|
    .optional (Codec.returns_text i.bestDifficulty) <|
    .optional (Codec.returns_text i.bestSessionDifficulty) <|
    .optional (Codec.returns_word64 i.freeHeap) <|
    .optional (law i.coreVoltage (by simp [floats])) <|
    .optional (law i.coreVoltageActual (by simp [floats])) <|
    .optional (Codec.returns_text i.hostname) <|
    .optional (Codec.returns_text i.ssid) <|
    .optional (Codec.returns_text i.wifiStatus) <|
    .optional (Codec.returns_word64 i.sharesAccepted) <|
    .optional (Codec.returns_word64 i.sharesRejected) <|
    .optional (Codec.returns_word64 i.uptimeSeconds) <|
    .optional (Codec.returns_word32 i.chipCount) <|
    .optional (Codec.returns_word32 i.coresPerChip) <|
    .optional (Codec.returns_text i.chipModel) <|
    .optional (Codec.returns_text i.poolUrl) <|
    .optional (Codec.returns_word16 i.poolPort) <|
    .optional (Codec.returns_text i.fallbackUrl) <|
    .optional (Codec.returns_word16 i.fallbackPort) <|
    .optional (Codec.returns_text i.poolUser) <|
    .optional (law i.frequency (by simp [floats])) <|
    .optional (Codec.returns_text i.version) <|
    .optional (Codec.returns_text i.boardVersion) <|
    .optional (law i.fanSpeed (by simp [floats])) <|
    .optional (law i.fanRpm (by simp [floats])) <|
    .ifPresent (g := f) ?_ rfl <|
    .ifPresent (g := f) ?_ rfl <|
    .optional (Codec.returns_word8 i.overheatMode) <|
    .ifPresent (g := Batch.mapFloats f) ?_ rfl .nil
  · exact fun x value => present x (by simp [floats, value])
  · exact fun x value => present x (by simp [floats, value])
  · intro b value
    refine ⟨Batch.returns_record fun x mem => law x ?_, nofun⟩
    simp [floats, value, mem]

/-- **A report is read back as it was, except for floats that are not.** Whatever its texts and words
are, whether the temperatures and the history are there, and however long the sequences of the history
are, the text that is written is read, as the same report with every float reread; so nothing at all is
lost exactly if each float is read back from its own text. -/
theorem report_is_read_back (i : DeviceInfo) (finite : ∀ x ∈ i.floats, x.isFinite = true) :
    record.codec.read (record.codec.write i) = some (i.mapFloats reread) ∧
      (record.codec.read (record.codec.write i) = some i ↔
        ∀ x ∈ i.floats, Codec.float.read (Codec.float.write x) = some x) := by
  have read : record.codec.read (record.codec.write i) = some (i.mapFloats reread) :=
    (returns_record fun x mem => returns_reread (finite x mem)).read_write
  refine ⟨read, ?_⟩
  rw [read, Option.some.injEq, mapFloats_eq_self_iff]
  apply forall₂_congr
  intro x mem
  rw [read_float (finite x mem), Option.some.injEq]

/-- A float of few digits is read back. -/
theorem read_of_short {x : Float} (finite : x.isFinite = true)
    (short : (Decimal.dataStyle.numeral x).Short) : Codec.float.read (Codec.float.write x) = some x := by
  have same : reread x = x := Codec.eq_of_returns_float short (returns_reread finite)
  rw [read_float finite, same]

/-- Marks and control characters in a text, one temperature only, and a history that is not aligned. -/
def ragged : DeviceInfo where
  power := 11.67
  hostname := "a\"b\\c\n\t\u0001é⛏"
  sharesAccepted := 18446744073709551615
  boardTemperature1 := some 30.5
  history := some ⟨18446744073709551615, [0, 18446744073709551615], [0.1], [], [1e21, 2.0, 3.0]⟩

theorem ragged_is_read_back : record.codec.read (record.codec.write ragged) = some ragged := by
  have finite : ∀ x ∈ ragged.floats, x.isFinite = true := by decide
  have short : ∀ x ∈ ragged.floats, (Decimal.dataStyle.numeral x).Short := by decide +kernel
  exact (report_is_read_back ragged finite).2.mpr fun x mem =>
    read_of_short (finite x mem) (short x mem)

end DeviceInfo
end MinerWatch
