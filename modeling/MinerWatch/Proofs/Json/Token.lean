import MinerWatch.Json.Parser
import MinerWatch.Json.Printer
/-!
Numbers and string literals are read back as they were written.

A number ends where the text can no longer belong to it, so it is read back only in
front of such a text (`Stops`); a literal ends with its quote. Any literal is read back, the
one that denotes no text included, but a number must be spelled as the grammar wants it
(`Legible`).
-/

namespace MinerWatch.Decimal

/-- The numeral is spelled as JSON wants it: no leading zeros, and digits behind an exponent mark. -/
structure Numeral.Legible (n : Numeral) : Prop where
  whole : n.whole = [.zero] ∨ ∃ d ds, n.whole = d :: ds ∧ d ≠ .zero
  exponent : ∀ e, n.exponent = some e → e.digits ≠ []

end MinerWatch.Decimal

namespace MinerWatch.Json

open MinerWatch.Decimal

/-- A number does not go on into the text. -/
def Stops (rest : List Char) : Prop :=
  ∀ c ∈ rest.head?, Digit.ofChar? c = none ∧ c ≠ '.' ∧ c ≠ 'e' ∧ c ≠ 'E'

theorem stops_nil : Stops [] := by
  simp [Stops]

theorem stops_comma (rest : List Char) : Stops (',' :: rest) := by
  simp [Stops]
  decide

theorem stops_bracket (rest : List Char) : Stops (']' :: rest) := by
  simp [Stops]
  decide

theorem stops_brace (rest : List Char) : Stops ('\x7d' :: rest) := by
  simp [Stops]
  decide

/-! ### Numbers -/

/-- The digits end where the text is no digit. -/
theorem spanDigits_append (ds : List Digit) (rest : List Char)
    (h : ∀ c ∈ rest.head?, Digit.ofChar? c = none) :
    spanDigits (ds.map Digit.char ++ rest) = (ds, rest) := by
  induction ds with
  | nil =>
      cases rest with
      | nil => rfl
      | cons c cs =>
          have none : Digit.ofChar? c = none := h c rfl
          simp [spanDigits, none]
  | cons d ds ih =>
      simp only [List.map_cons, List.cons_append, spanDigits, Digit.ofChar?_char, ih]

theorem digit_ne_zero {d : Digit} (h : d ≠ .zero) : d.char ≠ '0' := by
  revert d
  decide

theorem readWhole_append {ds : List Digit} (h : ds = [.zero] ∨ ∃ d es, ds = d :: es ∧ d ≠ .zero)
    {rest : List Char} (stops : ∀ c ∈ rest.head?, Digit.ofChar? c = none) :
    readWhole (ds.map Digit.char ++ rest) = some (ds, rest) := by
  rcases h with rfl | ⟨d, es, rfl, nonzero⟩
  · rfl
  · have span := spanDigits_append (d :: es) _ stops
    have head : (d :: es).map Digit.char ++ rest = d.char :: (es.map Digit.char ++ rest) := rfl
    rw [head] at span ⊢
    rw [readWhole]
    · simp [span]
    · intro rest' eq
      exact digit_ne_zero nonzero (List.cons.inj eq).1

def fractionText (ds : List Digit) : List Char :=
  if ds.isEmpty then [] else '.' :: ds.map Digit.char

theorem readFraction_append (ds : List Digit) {rest : List Char}
    (stops : ∀ c ∈ rest.head?, Digit.ofChar? c = none ∧ c ≠ '.') :
    readFraction (fractionText ds ++ rest) = some (ds, rest) := by
  cases ds with
  | nil =>
      show readFraction rest = _
      cases rest with
      | nil => rfl
      | cons c cs =>
          rw [readFraction]
          intro rest' eq
          exact (stops c rfl).2 (List.cons.inj eq).1
  | cons d ds =>
      have span := spanDigits_append (d :: ds) rest fun c hc => (stops c hc).1
      show readFraction ('.' :: ((d :: ds).map Digit.char ++ rest)) = _
      simp only [readFraction, span]
      rfl

def exponentText : Option Exponent → List Char
  | none => []
  | some e => 'e' :: (if e.negative then '-' else '+') :: e.digits.map Digit.char

theorem readExponent_append (e : Option Exponent) (digits : ∀ x, e = some x → x.digits ≠ [])
    {rest : List Char} (stops : Stops rest) :
    readExponent (exponentText e ++ rest) = some (e, rest) := by
  cases e with
  | none =>
      show readExponent rest = _
      cases rest with
      | nil => rfl
      | cons c cs =>
          obtain ⟨-, -, lower, upper⟩ := stops c rfl
          simp [readExponent, lower, upper]
  | some e =>
      have span := spanDigits_append e.digits rest fun c hc => (stops c hc).1
      have filled := digits e rfl
      obtain ⟨negative, ds⟩ := e
      cases negative <;> simp [exponentText, readExponent, readExponentSign, span, filled]

theorem spell_eq (n : Numeral) :
    n.spell = (if n.negative then ['-'] else []) ++
      (n.whole.map Digit.char ++ (fractionText n.fraction ++ exponentText n.exponent)) := by
  simp only [Numeral.spell, List.append_assoc]
  rfl

theorem head_exponent (e : Option Exponent) {rest : List Char} (stops : Stops rest) :
    ∀ c ∈ (exponentText e ++ rest).head?, Digit.ofChar? c = none ∧ c ≠ '.' := by
  cases e with
  | none => exact fun c hc => ⟨(stops c hc).1, (stops c hc).2.1⟩
  | some e =>
      rintro c ⟨⟩
      decide

theorem head_fraction (ds : List Digit) {rest : List Char}
    (stops : ∀ c ∈ rest.head?, Digit.ofChar? c = none ∧ c ≠ '.') :
    ∀ c ∈ (fractionText ds ++ rest).head?, Digit.ofChar? c = none := by
  cases ds with
  | nil => exact fun c hc => (stops c hc).1
  | cons d ds =>
      rintro c ⟨⟩
      decide

theorem readUnsigned_spell {n : Numeral} (legible : n.Legible) {rest : List Char} (stops : Stops rest) :
    readUnsigned n.negative
      (n.whole.map Digit.char ++ (fractionText n.fraction ++ (exponentText n.exponent ++ rest))) =
      some (n, rest) := by
  have exponent := head_exponent n.exponent stops
  have fraction := head_fraction n.fraction exponent
  simp only [readUnsigned, readWhole_append legible.whole fraction, Option.bind_some,
    readFraction_append n.fraction exponent, readExponent_append n.exponent legible.exponent stops,
    Option.map_some]

theorem exists_head_whole {n : Numeral} (legible : n.Legible) :
    ∃ d ds, n.whole = d :: ds := by
  rcases legible.whole with eq | ⟨d, ds, eq, -⟩
  · exact ⟨_, _, eq⟩
  · exact ⟨_, _, eq⟩

/-- A number starts with a minus or a digit. -/
theorem spell_head {n : Numeral} (legible : n.Legible) {p : Char → Prop} (minus : p '-')
    (digit : ∀ d : Digit, p d.char) : ∃ c cs, n.spell = c :: cs ∧ p c := by
  obtain ⟨d, ds, whole⟩ := exists_head_whole legible
  rw [spell_eq, whole]
  cases n.negative with
  | true => exact ⟨_, _, rfl, minus⟩
  | false => exact ⟨_, _, rfl, digit d⟩

theorem char_ne_minus : ∀ d : Digit, d.char ≠ '-' := by
  decide

/-- **A number is read back as it was written.** -/
theorem readNumber_spell {n : Numeral} (legible : n.Legible) {rest : List Char} (stops : Stops rest) :
    readNumber (n.spell ++ rest) = some (n, rest) := by
  have unsigned := readUnsigned_spell legible stops
  rw [spell_eq, List.append_assoc, List.append_assoc, List.append_assoc]
  cases negative : n.negative with
  | true =>
      rw [negative] at unsigned
      exact unsigned
  | false =>
      rw [negative] at unsigned
      obtain ⟨d, ds, whole⟩ := exists_head_whole legible
      rw [whole] at unsigned ⊢
      -- The first character is a digit, so the reader takes no sign.
      have digit : d.char ≠ '-' := char_ne_minus d
      show readNumber (d.char :: _) = _
      rw [readNumber]
      · exact unsigned
      · intro rest' eq
        exact digit (List.cons.inj eq).1

/-! ### String literals -/

theorem hexValue?_hexChar : ∀ d : Fin 16, hexValue? (hexChar d) = some d.val := by
  decide

/-- A character in front of what is read. -/
def consChar (c : Char) (read : Option (List Piece × List Char)) : Option (List Piece × List Char) :=
  read.map fun (ps, rest) => (.char c :: ps, rest)

theorem readPieces_letter {letter c : Char} (h : escaped? letter = some c) (rest : List Char) :
    readPieces ('\\' :: letter :: rest) = consChar c (readPieces rest) := by
  have ne : letter ≠ 'u' := by
    rintro rfl
    exact absurd h (by simp [escaped?])
  rw [readPieces, h]
  · cases readPieces rest <;> rfl
  · exact fun _ _ _ _ _ eq _ => ne eq

theorem readPieces_unit {c : Char} (control : c.toNat < 32) (rest : List Char) :
    readPieces ('\\' :: 'u' :: '0' :: '0' :: hexChar (Fin.ofNat 16 (c.toNat / 16)) ::
      hexChar (Fin.ofNat 16 (c.toNat % 16)) :: rest) = consChar c (readPieces rest) := by
  have unit : hexUnit? '0' '0' (hexChar (Fin.ofNat 16 (c.toNat / 16)))
      (hexChar (Fin.ofNat 16 (c.toNat % 16))) = some c.toNat := by
    have zero : hexValue? '0' = some 0 := by decide
    have digits : (Fin.ofNat 16 (c.toNat / 16)).val = c.toNat / 16 ∧
        (Fin.ofNat 16 (c.toNat % 16)).val = c.toNat % 16 := by
      simp only [Fin.ofNat]
      omega
    simp only [hexUnit?, zero, hexValue?_hexChar, digits, Option.some.injEq]
    omega
  have piece : Piece.ofUnit c.toNat = .char c := by
    rw [Piece.ofUnit, if_neg (by omega), Char.ofNat_toNat]
  rw [readPieces, unit]
  cases readPieces rest with
  | none => rfl
  | some read => exact congrArg (fun p => some (p :: read.1, read.2)) piece

theorem readPieces_plain {c : Char} (printable : ¬ c.toNat < 32) (quote : c ≠ '"')
    (backslash : c ≠ '\\') (rest : List Char) :
    readPieces (c :: rest) = consChar c (readPieces rest) := by
  rw [readPieces, if_neg (by simp [printable, backslash])]
  · cases readPieces rest <;> rfl
  · exact quote
  · exact fun _ _ _ _ _ eq _ => backslash eq
  · exact fun _ _ eq _ => backslash eq

/-- The three ways in which a character is written: by a letter, by its code point, or as it is. -/
theorem escapeChar_cases (c : Char) :
    (∃ letter, escapeChar c = ['\\', letter] ∧ escaped? letter = some c) ∨
    (c.toNat < 32 ∧ escapeChar c =
      ['\\', 'u', '0', '0', hexChar (Fin.ofNat 16 (c.toNat / 16)),
        hexChar (Fin.ofNat 16 (c.toNat % 16))]) ∨
    (¬ c.toNat < 32 ∧ c ≠ '"' ∧ c ≠ '\\' ∧ escapeChar c = [c]) := by
  by_cases letter : c ∈ ['"', '\\', '\n', '\r', '\t', '\x08', '\x0c']
  · left
    simp only [List.mem_cons, List.not_mem_nil, or_false] at letter
    rcases letter with rfl | rfl | rfl | rfl | rfl | rfl | rfl <;> exact ⟨_, rfl, by decide⟩
  · right
    simp only [List.mem_cons, List.not_mem_nil, or_false, not_or] at letter
    obtain ⟨quote, backslash, newline, return_, tab, back, feed⟩ := letter
    rw [escapeChar, if_neg quote, if_neg backslash, if_neg newline, if_neg return_, if_neg tab,
      if_neg back, if_neg feed]
    by_cases control : c.toNat < 32
    · exact .inl ⟨control, if_pos control⟩
    · exact .inr ⟨control, quote, backslash, if_neg control⟩

theorem readPieces_escapeChar (c : Char) (rest : List Char) :
    readPieces (escapeChar c ++ rest) = consChar c (readPieces rest) := by
  rcases escapeChar_cases c with
    ⟨letter, eq, escaped⟩ | ⟨control, eq⟩ | ⟨printable, quote, backslash, eq⟩ <;> rw [eq]
  · exact readPieces_letter escaped rest
  · exact readPieces_unit control rest
  · exact readPieces_plain printable quote backslash rest

theorem readPieces_flatMap (cs rest : List Char) :
    readPieces (cs.flatMap escapeChar ++ '"' :: rest) = some (cs.map .char, rest) := by
  induction cs with
  | nil => rfl
  | cons c cs ih =>
      rw [List.flatMap_cons, List.append_assoc, readPieces_escapeChar, ih]
      rfl

theorem joinPieces_map (cs : List Char) : joinPieces (cs.map .char) = some cs := by
  induction cs with
  | nil => rfl
  | cons c cs ih => rw [List.map_cons, joinPieces, ih]; rfl

/-- **A literal is read back as it was written**, after its opening quote. -/
theorem readLiteral_render (l : Literal) (rest : List Char) :
    ∃ cs, renderLiteral l = '"' :: cs ∧ readLiteral (cs ++ rest) = some (l, rest) := by
  cases l with
  | none => exact ⟨_, rfl, rfl⟩
  | some s =>
      refine ⟨_, rfl, ?_⟩
      rw [List.append_assoc]
      show readLiteral (s.toList.flatMap escapeChar ++ '"' :: rest) = _
      simp [readLiteral, readPieces_flatMap, joinPieces_map]

end MinerWatch.Json
