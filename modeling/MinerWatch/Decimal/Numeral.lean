/-!
Decimal numerals as they stand in a text: sign, whole digits, fraction, exponent.

A numeral keeps its digits, not its value, so that every reader can decide by
itself what it makes of them: an integer of some width, the nearest float, or the
float that a bounded significand gives. `digits` and `value` pass between a
natural number and its digits, and `value_digits` says that they agree.
-/

namespace MinerWatch.Decimal

abbrev Digit := Fin 10

def Digit.zero : Digit := ⟨0, by decide⟩

def Digit.char (d : Digit) : Char :=
  Char.ofNat (48 + d.val)

def Digit.ofChar? (c : Char) : Option Digit :=
  if h : 48 ≤ c.toNat ∧ c.toNat < 58 then some ⟨c.toNat - 48, by omega⟩ else none

theorem Digit.ofChar?_char (d : Digit) : Digit.ofChar? d.char = some d := by
  revert d; decide

/-- The number that digits denote, the most significant first. -/
def value (ds : List Digit) : Nat :=
  ds.foldl (fun n d => 10 * n + d.val) 0

/-- The digits of a number, the most significant first; zero has the one digit 0. -/
def digits (n : Nat) : List Digit :=
  if h : n < 10 then [⟨n, h⟩]
  else digits (n / 10) ++ [⟨n % 10, Nat.mod_lt _ (by decide)⟩]
termination_by n

@[simp] theorem value_nil : value [] = 0 := rfl

@[simp] theorem value_concat (ds : List Digit) (d : Digit) : value (ds ++ [d]) = 10 * value ds + d.val := by
  simp [value, List.foldl_append]

theorem value_digits (n : Nat) : value (digits n) = n := by
  induction n using digits.induct with
  | case1 n h => rw [digits, dif_pos h]; simp [value]
  | case2 n h ih => rw [digits, dif_neg h, value_concat, ih]; exact Nat.div_add_mod n 10

theorem digits_ne_nil (n : Nat) : digits n ≠ [] := by
  rw [digits]; split <;> simp

def spanDigits : List Char → List Digit × List Char
  | [] => ([], [])
  | c :: rest =>
    match Digit.ofChar? c with
    | none => ([], c :: rest)
    | some d => (d :: (spanDigits rest).1, (spanDigits rest).2)

structure Exponent where
  negative : Bool
  digits : List Digit
  deriving Repr, DecidableEq

/-- A decimal numeral as written. Without fraction digits it has no point. -/
structure Numeral where
  negative : Bool
  whole : List Digit
  fraction : List Digit
  exponent : Option Exponent
  deriving Repr, DecidableEq

namespace Numeral

def ofNat (n : Nat) : Numeral :=
  ⟨false, Decimal.digits n, [], none⟩

/-- The characters of a numeral. An exponent always shows its sign. -/
def spell (n : Numeral) : List Char :=
  (if n.negative then ['-'] else [])
    ++ n.whole.map Digit.char
    ++ (if n.fraction.isEmpty then [] else '.' :: n.fraction.map Digit.char)
    ++ (match n.exponent with
        | none => []
        | some e => 'e' :: (if e.negative then '-' else '+') :: e.digits.map Digit.char)

/-- The natural number that a numeral without sign, point and exponent denotes. -/
def toNat? (n : Numeral) : Option Nat :=
  if n.negative || !n.fraction.isEmpty || n.exponent.isSome then none else some (value n.whole)

theorem toNat?_ofNat (n : Nat) : (ofNat n).toNat? = some n := by
  simp [ofNat, toNat?, value_digits]

end Numeral

def natText (n : Nat) : String :=
  String.ofList (Numeral.ofNat n).spell

end MinerWatch.Decimal
