import MinerWatch.Decimal.Numeral
/-!
Floats from numerals, in the two ways in which this library reads them.

`Numeral.toFloat` gives the float nearest to the exact value. `Numeral.scaled?`
is the reading of data: the digits are gathered into a 64-bit significand, which is
converted and then scaled by one power of ten, so that it may round twice.
`readFloat?` is the grammar of free-standing float text.
-/

namespace MinerWatch.Decimal

def infinity : Float := 1.0 / 0.0

def tenTo (n : Nat) : Float :=
  Float.ofScientific 1 false n

/-- The float nearest to `coefficient * 10 ^ exponent`. Powers that are out of reach are not computed. -/
def nearest (coefficient : Nat) (exponent : Int) : Float :=
  if coefficient = 0 then 0.0
  else
    let size := exponent + (digits coefficient).length
    if size > 310 then infinity
    else if size < -330 then 0.0
    else Float.ofScientific coefficient (exponent < 0) exponent.natAbs

def Exponent.toInt (e : Exponent) : Int :=
  if e.negative then -(value e.digits : Int) else value e.digits

def Numeral.toFloat (n : Numeral) : Float :=
  let size := nearest (value (n.whole ++ n.fraction))
    ((n.exponent.map Exponent.toInt).getD 0 - n.fraction.length)
  if n.negative then -size else size

/-! ### The reading of data -/

/-- A digit still fits behind a 64-bit significand. -/
def fits (significand : Nat) (d : Digit) : Bool :=
  10 * significand + d.val < UInt64.size

/-- Gathers whole digits; from the first that does not fit, they are only counted. -/
def gatherWhole : Nat → List Digit → Nat × Nat
  | s, [] => (s, 0)
  | s, d :: ds => if fits s d then gatherWhole (10 * s + d.val) ds else (s, ds.length + 1)

/-- Gathers fraction digits and counts them; from the first that does not fit, they are left. -/
def gatherFraction : Nat → List Digit → Nat × Nat
  | s, [] => (s, 0)
  | s, d :: ds =>
    if fits s d then
      let r := gatherFraction (10 * s + d.val) ds
      (r.1, r.2 + 1)
    else (s, 0)

/-- Scales by a power of ten. Too large a result is infinite, too small a one is zero. -/
def scaleBy (f : Float) (e : Int) : Float :=
  if e.natAbs ≤ 308 then
    if 0 ≤ e then f * tenTo e.toNat else f / tenTo e.natAbs
  else if f == 0.0 then f
  else if 0 ≤ e then infinity
  else scaleBy (f / tenTo 308) (e + 308)
termination_by e.natAbs

def clampWord (e : Int) : Int :=
  max (-2147483648) (min 2147483647 e)

/-- The size of a numeral in data. An exponent beyond a 32-bit word is not scaled by at all. -/
def Numeral.scaledSize (n : Numeral) : Float :=
  let (s, dropped) := gatherWhole 0 n.whole
  let (s, taken) := gatherFraction s n.fraction
  let start : Int := (dropped : Int) - taken
  let f := s.toUInt64.toFloat
  match n.exponent with
  | none => scaleBy f start
  | some e =>
    if value e.digits ≤ 2147483647 then scaleBy f (clampWord (start + e.toInt))
    else if e.negative || s = 0 then 0.0
    else infinity

def Numeral.scaled (n : Numeral) : Float :=
  if n.negative then -n.scaledSize else n.scaledSize

def Numeral.scaled? (n : Numeral) : Option Float :=
  if n.scaled.isFinite then some n.scaled else none

/-- No text of data denotes a float that is not finite. -/
theorem Numeral.isFinite_of_scaled? {n : Numeral} {x : Float} (h : n.scaled? = some x) :
    x.isFinite = true := by
  unfold scaled? at h
  split at h
  · rename_i hx
    exact Option.some.inj h ▸ hx
  · exact absurd h (by simp)

/-! ### Free-standing text -/

def readSign : List Char → Bool × List Char
  | '+' :: rest => (false, rest)
  | '-' :: rest => (true, rest)
  | rest => (false, rest)

/-- An exponent that takes up the whole text; `none` when it is malformed. -/
def readExponent? : List Char → Option (Option Exponent)
  | [] => some none
  | c :: rest =>
    if c = 'e' ∨ c = 'E' then
      let (negative, rest) := readSign rest
      let (ds, rest) := spanDigits rest
      if ds.isEmpty || !rest.isEmpty then none else some (some ⟨negative, ds⟩)
    else none

/-- An unsigned numeral that takes up the whole text and has a digit before or after its point. -/
def readUnsigned? (negative : Bool) (cs : List Char) : Option Numeral :=
  let (whole, rest) := spanDigits cs
  let (fraction, rest) :=
    match rest with
    | '.' :: rest => spanDigits rest
    | rest => ([], rest)
  if whole.isEmpty && fraction.isEmpty then none
  else (readExponent? rest).map fun e => ⟨negative, whole, fraction, e⟩

/-- The float that a text denotes: a numeral with an optional sign, or infinity or NaN by name. -/
def readFloat? (cs : List Char) : Option Float :=
  let (negative, rest) := readSign cs
  let word := String.ofList (rest.map Char.toLower)
  if word = "inf" ∨ word = "infinity" then some (if negative then -infinity else infinity)
  else if word = "nan" then some (0.0 / 0.0)
  else (readUnsigned? negative rest).map Numeral.toFloat

/-- The 64-bit word that a text denotes: digits, with an optional plus in front. -/
def readWord? (cs : List Char) : Option UInt64 :=
  let digitsOnly := match cs with
    | '+' :: rest => rest
    | rest => rest
  let (ds, rest) := spanDigits digitsOnly
  if ds.isEmpty || !rest.isEmpty || UInt64.size ≤ value ds then none else some (value ds).toUInt64

end MinerWatch.Decimal
