/-!
The fewest decimal digits that identify a 64-bit float.

A finite float is `significand * 2 ^ exponent`. The reals that round to it form an
interval, whose ends belong to it exactly when the significand is even. For one
digit, two digits and so on, the two neighbours of the value on the grid of that
many digits are tried; the first grid with a neighbour inside the interval wins,
and of two such neighbours the nearer. A tie between them is left to the caller.
All of it is arithmetic on naturals, so nothing here rounds.
-/

namespace MinerWatch.Decimal

/-- A positive finite float as a significand and a power of two. -/
structure Binary where
  significand : Nat
  exponent : Int
  /-- The next float below is only half as far away as the next one above. -/
  narrowBelow : Bool
  deriving Repr, DecidableEq

/-- The leading bit of a full significand, which the bits of a float leave out. -/
def leadingBit : Nat := 4503599627370496

/-- The parts of the float with these bits, its sign left out. The bits are those of a finite float. -/
def Binary.ofBits (bits : UInt64) : Binary :=
  let e := ((bits >>> 52) &&& 0x7FF).toNat
  let f := (bits &&& 0xFFFFFFFFFFFFF).toNat
  if e = 0 then ⟨f, -1074, false⟩ else ⟨leadingBit + f, (e : Int) - 1075, f = 0 && 1 < e⟩

structure Scaled where
  coefficient : Nat
  exponent : Int
  deriving Repr, DecidableEq

inductive Tie where
  | toEven
  | up
  deriving Repr, DecidableEq

/-- The number `a * base ^ e`, a negative power left out. -/
def scaleUp (base a : Nat) (e : Int) : Nat :=
  a * Nat.pow base e.toNat

/-- The order of `a * 10 ^ i` and `b * 2 ^ j`. -/
def compareScaled (a : Nat) (i : Int) (b : Nat) (j : Int) : Ordering :=
  compare (scaleUp 2 (scaleUp 10 a i) (-j)) (scaleUp 10 (scaleUp 2 b j) (-i))

/-- The decimal lies in the interval of reals that round to the float. -/
def Binary.holds (x : Binary) (d : Scaled) : Bool :=
  let low := compareScaled d.coefficient d.exponent
    (4 * x.significand - if x.narrowBelow then 1 else 2) (x.exponent - 2)
  let high := compareScaled d.coefficient d.exponent (4 * x.significand + 2) (x.exponent - 2)
  let closed := x.significand % 2 = 0
  (low = .gt || (closed && low = .eq)) && (high = .lt || (closed && high = .eq))

/-- How many digits the whole part has: the least `k` with a value below `10 ^ k`. -/
def Binary.magnitude (x : Binary) : Int :=
  let guess := ((x.significand.log2 + x.exponent) * 30103).fdiv 100000 - 1
  ([0, 1, 2, 3].map (guess + ·)).find? (fun k => compareScaled 1 k x.significand x.exponent = .gt)
    |>.getD (guess + 4)

/-- The largest multiple of `10 ^ grid` that does not exceed the value, counted in that unit. -/
def Binary.below (x : Binary) (grid : Int) : Nat :=
  scaleUp 10 (scaleUp 2 x.significand x.exponent) (-grid)
    / scaleUp 10 (scaleUp 2 1 (-x.exponent)) grid

def Binary.onGrid? (x : Binary) (tie : Tie) (grid : Int) : Option Scaled :=
  let n := x.below grid
  match x.holds ⟨n, grid⟩, x.holds ⟨n + 1, grid⟩ with
  | false, false => none
  | true, false => some ⟨n, grid⟩
  | false, true => some ⟨n + 1, grid⟩
  | true, true =>
    match compareScaled (2 * n + 1) grid (2 * x.significand) x.exponent, tie with
    | .gt, _ => some ⟨n, grid⟩
    | .lt, _ => some ⟨n + 1, grid⟩
    | .eq, .up => some ⟨n + 1, grid⟩
    | .eq, .toEven => some (if n % 2 = 0 then ⟨n, grid⟩ else ⟨n + 1, grid⟩)

def Scaled.strip : Nat → Scaled → Scaled
  | 0, d => d
  | fuel + 1, d =>
    if d.coefficient ≠ 0 ∧ d.coefficient % 10 = 0 then
      Scaled.strip fuel ⟨d.coefficient / 10, d.exponent + 1⟩
    else d

def Binary.exact (x : Binary) : Scaled :=
  if 0 ≤ x.exponent then ⟨scaleUp 2 x.significand x.exponent, 0⟩
  else ⟨scaleUp 5 x.significand (-x.exponent), x.exponent⟩

/-- The shortest decimal that identifies a positive float. Seventeen digits are always enough. -/
def Binary.shortest (x : Binary) (tie : Tie) : Scaled :=
  let k := x.magnitude
  let found := (List.range 17).findSome? (fun n => x.onGrid? tie (k - ((n + 1 : Nat) : Int)))
  (found.getD x.exact).strip 400

end MinerWatch.Decimal
