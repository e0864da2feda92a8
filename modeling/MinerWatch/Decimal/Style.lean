import MinerWatch.Decimal.Numeral
import MinerWatch.Decimal.Shortest
/-!
How the digits of a float are laid out as a numeral.

`Style` holds the decisions of one written format. Which digits are written is not
among them, except for the tie between two equally near decimals: they are always
the fewest that identify the float.
-/

namespace MinerWatch.Decimal

/-- The sign bit, which is also set on negative zero. -/
def isNegative (x : Float) : Bool :=
  x.toBits >>> 63 = 1

structure Style where
  /-- Which of two equally near shortest decimals is taken. -/
  tie : Tie
  /-- The powers of ten of the leading digit that are written without an exponent. -/
  plain : Int → Bool
  /-- A whole number shows a point and a zero. -/
  pointZero : Bool

namespace Style

def plainNumeral (s : Style) (negative : Bool) (ds : List Digit) (lead : Int) : Numeral :=
  if lead < 0 then ⟨negative, [.zero], List.replicate (-lead - 1).toNat .zero ++ ds, none⟩
  else
    let n := lead.toNat + 1
    let fraction := ds.drop n
    ⟨negative, ds.take n ++ List.replicate (n - ds.length) .zero,
      if fraction.isEmpty && s.pointZero then [.zero] else fraction, none⟩

def scientificNumeral (negative : Bool) (ds : List Digit) (lead : Int) : Numeral :=
  ⟨negative, ds.take 1, ds.drop 1, some ⟨lead < 0, digits lead.natAbs⟩⟩

def numeral (s : Style) (x : Float) : Numeral :=
  let b := Binary.ofBits x.toBits
  if b.significand = 0 then s.plainNumeral (isNegative x) [.zero] 0
  else
    let d := b.shortest s.tie
    let ds := digits d.coefficient
    let lead := d.exponent + ds.length - 1
    if s.plain lead then s.plainNumeral (isNegative x) ds lead
    else scientificNumeral (isNegative x) ds lead

end Style

/-- Values in data: positional from `0.00001` to below `10 ^ 16`, always with a point or an exponent. -/
def dataStyle : Style where
  tie := .toEven
  plain lead := -5 ≤ lead && lead < 16
  pointZero := true

/-- Values in a message: always positional, and a whole number has no point. -/
def messageStyle : Style where
  tie := .up
  plain _ := true
  pointZero := false

def Style.text (s : Style) (x : Float) : String :=
  if x.isNaN then "NaN"
  else if x.isInf then (if isNegative x then "-inf" else "inf")
  else String.ofList (s.numeral x).spell

end MinerWatch.Decimal
