import Mathlib.Algebra.Ring.Nat
import MinerWatch.Decimal.Reading
import MinerWatch.Proofs.Json.Token
/-!
Which free-standing texts are numerals, and which are words.

A text is read as a float if it is a numeral with an optional sign; the only other texts that are
read at all name infinity or no number, and no float of theirs is finite. It is read as a word if it
consists of digits, a plus in front if there is one, and their number has 64 bits.
-/

namespace MinerWatch.Decimal

variable {c : Char} {cs : List Char} {ds : List Digit} {n : Numeral}

/-- The numeral that a text is, a sign in front if there is one. -/
def numeral? (cs : List Char) : Option Numeral :=
  readUnsigned? (readSign cs).1 (readSign cs).2

/-- The text consists of these digits, a plus in front if there is one. -/
def Plain (cs : List Char) (ds : List Digit) : Prop :=
  ds ≠ [] ∧ (cs = ds.map Digit.char ∨ cs = '+' :: ds.map Digit.char)

/-! ### Digits -/

theorem char_of_ofChar? {d : Digit} (h : Digit.ofChar? c = some d) : d.char = c := by
  unfold Digit.ofChar? at h
  split at h
  · rename_i range
    obtain rfl := Option.some.inj h
    have place : 48 + (c.toNat - 48) = c.toNat := by omega
    rw [Digit.char, place]
    exact Char.ofNat_toNat c
  · exact absurd h (by simp)

/-- The digits at the front and what follows them make up the text. -/
theorem spanDigits_append_eq (cs : List Char) :
    (spanDigits cs).1.map Digit.char ++ (spanDigits cs).2 = cs := by
  induction cs with
  | nil => rfl
  | cons c cs ih =>
      rw [spanDigits]
      split
      · rfl
      · rename_i d found
        rw [List.map_cons, List.cons_append, ih, char_of_ofChar? found]

theorem spanDigits_map (ds : List Digit) : spanDigits (ds.map Digit.char) = (ds, []) := by
  have span := Json.spanDigits_append ds [] (by simp)
  rwa [List.append_nil] at span

theorem head_ne_of_digits {sign : Char} (other : ∀ d : Digit, d.char ≠ sign) (ds : List Digit)
    (rest : List Char) : ds.map Digit.char ≠ sign :: rest := by
  intro eq
  have head : sign ∈ ds.map Digit.char := eq ▸ List.mem_cons_self
  obtain ⟨d, -, same⟩ := List.mem_map.mp head
  exact other d same

/-! ### Words -/

/-- The word that a text without its plus is. -/
def wordOfDigits? (cs : List Char) : Option UInt64 :=
  let (ds, rest) := spanDigits cs
  if ds.isEmpty || !rest.isEmpty || UInt64.size ≤ value ds then none else some (value ds).toUInt64

theorem readWord?_plus (cs : List Char) : readWord? ('+' :: cs) = wordOfDigits? cs := rfl

theorem readWord?_of_ne_plus (h : ∀ rest, cs ≠ '+' :: rest) : readWord? cs = wordOfDigits? cs := by
  unfold readWord?
  split
  · rename_i rest
    exact absurd rfl (h rest)
  · rfl

theorem wordOfDigits?_map (filled : ds ≠ []) (fits : value ds < 2 ^ 64) :
    wordOfDigits? (ds.map Digit.char) = some (value ds).toUInt64 := by
  have word : ¬ UInt64.size ≤ value ds := Nat.not_le.mpr fits
  simp [wordOfDigits?, spanDigits_map, filled, word]

theorem exists_of_wordOfDigits? {w : UInt64} (h : wordOfDigits? cs = some w) :
    ∃ ds, ds ≠ [] ∧ cs = ds.map Digit.char ∧ value ds < 2 ^ 64 := by
  have whole := spanDigits_append_eq cs
  unfold wordOfDigits? at h
  split at h
  rename_i ds rest span
  rw [span] at whole
  split at h
  · exact absurd h (by simp)
  · rename_i given
    simp only [Bool.or_eq_true, Bool.not_eq_true', List.isEmpty_iff, decide_eq_true_eq, not_or,
      Bool.not_eq_false, Nat.not_le] at given
    obtain ⟨⟨filled, rfl⟩, fits⟩ := given
    exact ⟨ds, filled, by simpa using whole.symm, fits⟩

/-- A word is read as its digits say. -/
theorem readWord?_of_plain (plain : Plain cs ds) (fits : value ds < 2 ^ 64) :
    readWord? cs = some (value ds).toUInt64 := by
  obtain ⟨filled, rfl | rfl⟩ := plain
  · rw [readWord?_of_ne_plus (head_ne_of_digits (by decide) ds), wordOfDigits?_map filled fits]
  · rw [readWord?_plus, wordOfDigits?_map filled fits]

theorem toList_natText (n : Nat) : (natText n).toList = (digits n).map Digit.char := by
  simp [natText, Numeral.ofNat, Numeral.spell]

/-- A word is read back from its digits. -/
theorem readWord?_natText (w : UInt64) : readWord? (natText w.toNat).toList = some w := by
  have plain : Plain (natText w.toNat).toList (digits w.toNat) :=
    ⟨digits_ne_nil w.toNat, .inl (toList_natText w.toNat)⟩
  have same : w.toNat.toUInt64 = w := UInt64.ofNat_toNat
  rw [readWord?_of_plain plain (by rw [value_digits]; exact w.toNat_lt), value_digits, same]

/-- Nothing else is read as a word. -/
theorem readWord?_eq_none (h : ∀ ds, Plain cs ds → 2 ^ 64 ≤ value ds) : readWord? cs = none := by
  refine Option.eq_none_iff_forall_ne_some.mpr fun w read => ?_
  by_cases plus : ∃ rest, cs = '+' :: rest
  · obtain ⟨rest, rfl⟩ := plus
    obtain ⟨ds, filled, rfl, fits⟩ := exists_of_wordOfDigits? ((readWord?_plus rest).symm.trans read)
    exact absurd (h ds ⟨filled, .inr rfl⟩) (Nat.not_le.mpr fits)
  · rw [readWord?_of_ne_plus (not_exists.mp plus)] at read
    obtain ⟨ds, filled, rfl, fits⟩ := exists_of_wordOfDigits? read
    exact absurd (h ds ⟨filled, .inl rfl⟩) (Nat.not_le.mpr fits)

/-! ### Numerals -/

theorem readUnsigned?_map (filled : ds ≠ []) :
    readUnsigned? false (ds.map Digit.char) = some ⟨false, ds, [], none⟩ := by
  simp [readUnsigned?, spanDigits_map, filled, readExponent?]

/-- Digits are the numeral that consists of them. -/
theorem numeral?_of_plain (plain : Plain cs ds) : numeral? cs = some ⟨false, ds, [], none⟩ := by
  obtain ⟨filled, rfl | rfl⟩ := plain
  · have signless : readSign (ds.map Digit.char) = (false, ds.map Digit.char) := by
      unfold readSign
      split
      · rename_i rest eq
        exact absurd eq (head_ne_of_digits (by decide) ds rest)
      · rename_i rest eq
        exact absurd eq (head_ne_of_digits (by decide) ds rest)
      · rfl
    rw [numeral?, signless]
    exact readUnsigned?_map filled
  · exact readUnsigned?_map filled

/-- A numeral starts with a digit or with its point. -/
theorem head_of_readUnsigned? {negative : Bool} (h : readUnsigned? negative cs = some n) :
    ∃ c rest, cs = c :: rest ∧ (c = '.' ∨ ∃ d : Digit, d.char = c) := by
  cases cs with
  | nil => exact absurd h (by simp [readUnsigned?, spanDigits])
  | cons c rest =>
      refine ⟨c, rest, rfl, ?_⟩
      cases digit : Digit.ofChar? c with
      | some d => exact .inr ⟨d, char_of_ofChar? digit⟩
      | none =>
          by_cases point : c = '.'
          · exact .inl point
          · have span : spanDigits (c :: rest) = ([], c :: rest) := by rw [spanDigits, digit]
            simp [readUnsigned?, span, point] at h

/-- The names of what is no number do not start like a numeral. -/
theorem toLower_head_of_readUnsigned? {negative : Bool} (h : readUnsigned? negative cs = some n) :
    ∀ name ∈ ["inf", "infinity", "nan"], String.ofList (cs.map Char.toLower) ≠ name := by
  obtain ⟨c, rest, rfl, start⟩ := head_of_readUnsigned? h
  have head : c.toLower ≠ 'i' ∧ c.toLower ≠ 'n' := by
    rcases start with rfl | ⟨d, rfl⟩
    · decide
    · exact (by decide : ∀ d : Digit, d.char.toLower ≠ 'i' ∧ d.char.toLower ≠ 'n') d
  intro name hn same
  have letters : (c :: rest).map Char.toLower = name.toList := by
    rw [← same, String.toList_ofList]
  simp only [List.mem_cons, List.not_mem_nil, or_false] at hn
  rcases hn with rfl | rfl | rfl
  · exact head.1 (List.cons.inj letters).1
  · exact head.1 (List.cons.inj letters).1
  · exact head.2 (List.cons.inj letters).1

/-- A numeral is read as the float of its number. -/
theorem readFloat?_of_numeral (h : numeral? cs = some n) : readFloat? cs = some n.toFloat := by
  have named := toLower_head_of_readUnsigned? h
  unfold numeral? at h
  unfold readFloat?
  generalize readSign cs = parts at h named ⊢
  obtain ⟨negative, rest⟩ := parts
  dsimp only at h named ⊢
  rw [if_neg, if_neg (named "nan" (by simp)), h, Option.map_some]
  exact fun either => either.elim (named "inf" (by simp)) (named "infinity" (by simp))

/-- A text that is no numeral is not read as a finite float. -/
theorem isFinite_of_readFloat? (h : numeral? cs = none) : ∀ x ∈ readFloat? cs, x.isFinite = false := by
  unfold numeral? at h
  unfold readFloat?
  generalize readSign cs = parts at h ⊢
  obtain ⟨negative, rest⟩ := parts
  dsimp only at h ⊢
  intro x read
  split at read
  · obtain rfl := Option.some.inj read
    cases negative <;> rfl
  · split at read
    · obtain rfl := Option.some.inj read
      rfl
    · rw [h] at read
      exact absurd read (by simp)

end MinerWatch.Decimal
