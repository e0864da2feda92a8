import MinerWatch.Decimal.Numeral
import MinerWatch.Millis
/-!
Clocks: how they go on, and how log lines show their time.

A clock that is set by hand may be moved by any delay, and only this wraps around.
Each kind of clock has its own text: a count of milliseconds, the time of day, or
the number of a reading where no time is known.
-/

namespace MinerWatch

def padded (width n : Nat) : String :=
  let text := Decimal.natText n
  String.ofList (List.replicate (width - text.length) '0') ++ text

namespace Clock

/-- The time after a delay. Beyond the last instant the count starts again at the epoch. -/
def advance (time delay : Millis) : Millis :=
  time + delay

/-- The first readings of a clock that only counts how often it is read. -/
def readings (first : Millis) : Nat → List Millis
  | 0 => []
  | n + 1 => first :: readings (advance first 1) n

/-- The instant that a floating count of milliseconds denotes: its whole part, within the range of a word. -/
def ofFloat (x : Float) : Millis :=
  x.toUInt64

def millis (t : Millis) : String :=
  Decimal.natText t.toNat ++ "ms"

def sequence (t : Millis) : String :=
  padded 6 t.toNat

def lastDate : Nat := 8640000000000000

/-- The time of day. An instant beyond the last date has no time of day and shows zeros. -/
def timeOfDay (t : Millis) : String :=
  let ms := if t.toNat ≤ lastDate then t.toNat else 0
  padded 2 (ms / 3600000 % 24) ++ ":" ++ padded 2 (ms / 60000 % 60) ++ ":"
    ++ padded 2 (ms / 1000 % 60) ++ "." ++ padded 3 (ms % 1000)

end Clock
end MinerWatch
