import MinerWatch.Decimal.Style
import MinerWatch.Decimal.Reading
import MinerWatch.Json.Parser
import MinerWatch.Json.Printer
/-!
Codecs: how a type is written as a JSON value and read from one.

A number is read strictly. A word takes a numeral without sign, point and exponent
inside its range; a float takes any numeral that is not too large. `null` is read
only where a value may be absent. A float that is not finite is written as `null`,
so it does not read back.
-/

namespace MinerWatch.Json

open MinerWatch.Decimal

structure Codec (α : Type) where
  encode : α → Value
  decode : Value → Option α

def Codec.write {α : Type} (c : Codec α) (a : α) : String :=
  (c.encode a).toText

def Codec.read {α : Type} (c : Codec α) (s : String) : Option α :=
  (parse s).bind c.decode

/-- What messages say of a text that is not in the expected form. -/
def refusalText : String := "<json error>"

namespace Codec

def natBelow (limit : Nat) : Codec Nat where
  encode n := .num (Numeral.ofNat n)
  decode
    | .num n => n.toNat?.filter (· < limit)
    | _ => none

def map {α β : Type} (c : Codec α) (there : α → β) (back : β → α) : Codec β where
  encode b := c.encode (back b)
  decode v := (c.decode v).map there

def word8 : Codec UInt8 := (natBelow UInt8.size).map Nat.toUInt8 UInt8.toNat

def word16 : Codec UInt16 := (natBelow UInt16.size).map Nat.toUInt16 UInt16.toNat

def word32 : Codec UInt32 := (natBelow UInt32.size).map Nat.toUInt32 UInt32.toNat

def word64 : Codec UInt64 := (natBelow UInt64.size).map Nat.toUInt64 UInt64.toNat

def float : Codec Float where
  encode x := if x.isFinite then .num (dataStyle.numeral x) else .null
  decode
    | .num n => n.scaled?
    | _ => none

def text : Codec String where
  encode s := .str (some s)
  decode
    | .str s => s
    | _ => none

def list {α : Type} (c : Codec α) : Codec (List α) where
  encode xs := .arr (xs.map c.encode)
  decode
    | .arr vs => vs.mapM c.decode
    | _ => none

def option {α : Type} (c : Codec α) : Codec (Option α) where
  encode
    | none => .null
    | some a => c.encode a
  decode
    | .null => some none
    | v => (c.decode v).map some

/-- One of finitely many names. A name may also stand as the only member of an object, with `null`. -/
def choice {α : Type} (name : α → String) (all : List α) : Codec α where
  encode a := .text (name a)
  decode
    | .str (some s) => all.find? (fun a => name a = s)
    | .obj [(some s, .null)] => all.find? (fun a => name a = s)
    | _ => none

end Codec
end MinerWatch.Json
