import MinerWatch.Decimal.Numeral
/-!
The values of JSON texts.

A value keeps what a reader may still ask for: a number keeps its numeral, an
object keeps its members in order and with repetitions. A string literal may spell
half of a surrogate pair; such a literal is well formed but denotes no text, and is
kept as `none`. So a value exists for every well-formed text, however deeply nested
and whatever its numbers are, and only the reader of a field decides what it refuses.
-/

namespace MinerWatch.Json

open MinerWatch.Decimal

/-- A string literal: its text, or `none` when its escapes do not form one. -/
abbrev Literal := Option String

inductive Value where
  | null
  | bool (b : Bool)
  | num (n : Numeral)
  | str (s : Literal)
  | arr (items : List Value)
  | obj (members : List (Literal × Value))

def Value.text (s : String) : Value :=
  .str (some s)

end MinerWatch.Json
