import MinerWatch.Device.Api
import MinerWatch.Proofs.Json.Codec
import MinerWatch.Proofs.Text.Trim
import MinerWatch.Settings
/-!
The origin in the settings.

An origin is brought into shape where it is set, where settings are read, and again where an
interface to the device is made of it. `origin_is_stable_unless_blank` says when all of them
agree: on every origin that does not end in white space.
-/

namespace MinerWatch.Settings

open Json Text

/-! ### Written and read again -/

theorem returns_origin (origin : String) : Returns originCodec origin (originOf origin) :=
  ⟨.str (some origin), rfl⟩

theorem returns_level (l : Level) : Returns Level.codec l l :=
  Codec.returns_choice (by cases l <;> decide)

/-- Settings return as they were, their origin brought into shape once more. -/
theorem returns_record (s : Settings) : Returns record.codec s (s.withOrigin s.origin) :=
  Record.returns_of_rereads (by decide) <|
    .optional (returns_origin s.origin) <|
    .optional (Codec.returns_word32 s.pollInterval) <|
    .optional (Codec.returns_word64 s.retention) <|
    .optional (Codec.returns_text s.keys.chart) <|
    .optional (Codec.returns_text s.keys.cursor) <|
    .optional (returns_level s.logLevel) .nil

/-! ### Where origins come from -/

/-- Settings as they are given to the engine: with an origin that was set, or read from a text. -/
inductive Given : Settings → Prop
  | set (earlier : Settings) (raw : String) : Given (earlier.withOrigin raw)
  | read {text : String} {s : Settings} (h : record.codec.read text = some s) : Given s

/-- Every origin that is read is brought into shape, also the blank one that stands for a missing
one. -/
theorem Given.exists_raw {s : Settings} (given : s.Given) : ∃ raw, s.origin = originOf raw := by
  cases given with
  | set earlier raw => exact ⟨raw, rfl⟩
  | read h =>
      obtain ⟨value, -, decoded⟩ := Option.bind_eq_some_iff.mp h
      refine Record.decode_induction (P := fun s => ∃ raw, s.origin = originOf raw) ?_
        ⟨"", by decide⟩ decoded
      intro f hf v before after shaped taken
      simp only [record, List.mem_cons, List.not_mem_nil, or_false] at hf
      rcases hf with rfl | rfl | rfl | rfl | rfl | rfl
      · obtain ⟨origin, decoded, rfl⟩ := Field.exists_of_optional taken
        obtain ⟨raw, -, rfl⟩ := Option.map_eq_some_iff.mp decoded
        exact ⟨raw, rfl⟩
      all_goals
        obtain ⟨_, -, rfl⟩ := Field.exists_of_optional taken
        exact shaped

theorem withOrigin_eq_self_iff (s : Settings) :
    s.withOrigin s.origin = s ↔ originOf s.origin = s.origin := by
  constructor
  · exact congrArg origin
  · intro same
    rw [withOrigin, same]

/-- **An origin is stable unless it ends in white space.** In shape it never starts with white space
and never ends in a slash; where slashes hid white space from the first trim it ends in white space,
and exactly there it changes when it is brought into shape again. So the interface to the device
uses the origin in the settings, and settings that are written are read as they were, exactly if
this origin does not end in white space; nothing else in them ever changes. -/
theorem origin_is_stable_unless_blank (raw : String) (s : Settings) :
    (¬ StartsIn isBlank (originOf raw).toList ∧
      ¬ EndsIn isSlash (originOf raw).toList ∧
      (EndsIn isBlank (originOf raw).toList ↔ BlankBeforeSlashes raw) ∧
      (originOf (originOf raw) = originOf raw ↔ ¬ BlankBeforeSlashes raw)) ∧
    (s.Given →
      (∃ given : String, s.origin = originOf given) ∧
      ((DeviceApi.ofOrigin s.origin).origin = s.origin ↔ ¬ EndsIn isBlank s.origin.toList) ∧
      record.codec.read (record.codec.write s) = some (s.withOrigin s.origin) ∧
      (record.codec.read (record.codec.write s) = some s ↔
        ¬ EndsIn isBlank s.origin.toList)) := by
  refine ⟨⟨not_startsIn_originOf raw, not_endsIn_slash_originOf raw, endsIn_originOf_iff raw, ?_⟩,
    fun given => ?_⟩
  · rw [originOf_originOf_eq_iff, endsIn_originOf_iff]
  · obtain ⟨first, shaped⟩ := given.exists_raw
    have stable : originOf s.origin = s.origin ↔ ¬ EndsIn isBlank s.origin.toList := by
      rw [shaped]
      exact originOf_originOf_eq_iff first
    have read := (returns_record s).read_write
    refine ⟨⟨first, shaped⟩, stable, read, ?_⟩
    rw [read, Option.some.injEq, withOrigin_eq_self_iff, stable]

/-- The settings that name the device with white space around it and slashes behind it. -/
def padded : Settings :=
  ({} : Settings).withOrigin " http://bitaxe.local// "

theorem padded_is_stable :
    padded.origin = "http://bitaxe.local" ∧
      (DeviceApi.ofOrigin padded.origin).origin = padded.origin ∧
      record.codec.read (record.codec.write padded) = some padded := by
  have shaped : padded.origin = "http://bitaxe.local" := by decide
  have graphic : ¬ EndsIn isBlank padded.origin.toList :=
    dropEnd_eq_self_iff.mp (by decide)
  obtain ⟨-, interface, -, read⟩ :=
    (origin_is_stable_unless_blank " http://bitaxe.local// " padded).2
      (.set {} " http://bitaxe.local// ")
  exact ⟨shaped, interface.mpr graphic, read.mpr graphic⟩

/-- With white space before its slash, the origin of the settings is none that the device is asked
at, and none that is read again. -/
theorem spaced_is_unstable :
    originOf "a /" = "a " ∧ originOf (originOf "a /") = "a" ∧
      (∃ s : Settings, s.Given ∧ s.origin = "a " ∧ (DeviceApi.ofOrigin s.origin).origin = "a" ∧
        record.codec.read (record.codec.write s) ≠ some s) := by
  have shaped : originOf "a /" = "a " := by decide
  have again : originOf "a " = "a" := by decide
  refine ⟨shaped, shaped ▸ again, ({} : Settings).withOrigin "a /", .set {} "a /", shaped, ?_, ?_⟩
  · show originOf (originOf "a /") = "a"
    rw [shaped, again]
  · rw [(returns_record _).read_write, ne_eq, Option.some.injEq, withOrigin_eq_self_iff]
    show ¬ originOf (originOf "a /") = originOf "a /"
    rw [shaped, again]
    decide

end MinerWatch.Settings
