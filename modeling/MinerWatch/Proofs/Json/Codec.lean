import MinerWatch.Json.Record
import MinerWatch.Proofs.Decimal.Exact
import MinerWatch.Proofs.Json.RoundTrip
/-!
What is read back from the text of a value.

Words and texts come back as they were. A finite float comes back as a finite one, and as
it was if it is written with few digits. `Returns` says what comes back, and that the value has a
text in which everything is spelled as the grammar wants it.
-/

namespace MinerWatch.Decimal

/-! ### Numerals that are spelled as the grammar wants them -/

theorem exists_head_digits {n : Nat} (h : n ≠ 0) : ∃ d ds, digits n = d :: ds ∧ d ≠ .zero := by
  induction n using digits.induct with
  | case1 n small =>
      refine ⟨⟨n, small⟩, [], by rw [digits, dif_pos small], fun zero => h ?_⟩
      exact congrArg Fin.val zero
  | case2 n large ih =>
      obtain ⟨d, ds, eq, nonzero⟩ := ih (by omega)
      exact ⟨d, ds ++ [⟨n % 10, _⟩], by rw [digits, dif_neg large, eq]; rfl, nonzero⟩

theorem legible_ofNat (n : Nat) : (Numeral.ofNat n).Legible := by
  refine ⟨?_, fun e h => absurd h (by simp [Numeral.ofNat])⟩
  by_cases zero : n = 0
  · left
    rw [zero]
    show digits 0 = _
    rw [digits, dif_pos (by decide)]
    rfl
  · exact .inr (exists_head_digits zero)

/-- The whole digits of a plain numeral start with its first digit. -/
theorem legible_plainNumeral (s : Style) (negative : Bool) {ds : List Digit} (lead : Int)
    (h : ∃ d es, ds = d :: es ∧ d ≠ .zero) : (s.plainNumeral negative ds lead).Legible := by
  obtain ⟨d, es, rfl, nonzero⟩ := h
  unfold Style.plainNumeral
  split
  · exact ⟨.inl rfl, fun e h => absurd h (by simp)⟩
  · exact ⟨.inr ⟨d, _, rfl, nonzero⟩, fun e h => absurd h (by simp)⟩

theorem legible_scientificNumeral (negative : Bool) {ds : List Digit} (lead : Int)
    (h : ∃ d es, ds = d :: es ∧ d ≠ .zero) : (Style.scientificNumeral negative ds lead).Legible := by
  obtain ⟨d, es, rfl, nonzero⟩ := h
  refine ⟨.inr ⟨d, [], rfl, nonzero⟩, ?_⟩
  rintro e ⟨⟩
  exact digits_ne_nil _

theorem legible_numeral (x : Float) : (dataStyle.numeral x).Legible := by
  rw [numeral_eq]
  split
  · exact ⟨.inl rfl, fun e h => absurd h (by simp [Style.plainNumeral])⟩
  · rename_i nonzero
    have identifies := identifies_shortest (x := Binary.ofBits x.toBits)
      (Nat.pos_of_ne_zero nonzero) .toEven
    have head := exists_head_digits identifies.nonzero
    unfold Style.layout
    simp only
    split
    · exact legible_plainNumeral dataStyle _ _ head
    · exact legible_scientificNumeral _ _ head

end MinerWatch.Decimal

namespace MinerWatch.Json

open MinerWatch.Decimal

variable {α : Type}

/-- The text of `a` is read back as `b`. -/
structure Returns (c : Codec α) (a b : α) : Prop where
  legible : (c.encode a).Legible
  decoded : c.decode (c.encode a) = some b

theorem Returns.read_write {c : Codec α} {a b : α} (h : Returns c a b) :
    c.read (c.write a) = some b := by
  simp only [Codec.read, Codec.write, parse_toText h.legible, Option.bind_some, h.decoded]

/-- A type that stands for another one returns as that one does. -/
theorem Returns.map {β : Type} {c : Codec α} {there : α → β} {back : β → α} {b : β} {a : α}
    (h : Returns c (back b) a) : Returns (c.map there back) b (there a) := by
  refine ⟨h.legible, ?_⟩
  show (c.decode (c.encode (back b))).map there = some (there a)
  rw [h.decoded, Option.map_some]

namespace Codec

theorem returns_natBelow {limit n : Nat} (h : n < limit) : Returns (natBelow limit) n n := by
  refine ⟨.num (legible_ofNat n), ?_⟩
  show ((Numeral.ofNat n).toNat?).filter (· < limit) = some n
  rw [Numeral.toNat?_ofNat, Option.filter_some, if_pos (decide_eq_true h)]

theorem returns_word8 (w : UInt8) : Returns word8 w w := by
  have returns : Returns word8 w w.toNat.toUInt8 := (returns_natBelow w.toNat_lt).map
  have same : w.toNat.toUInt8 = w := UInt8.ofNat_toNat
  rwa [same] at returns

theorem returns_word16 (w : UInt16) : Returns word16 w w := by
  have returns : Returns word16 w w.toNat.toUInt16 := (returns_natBelow w.toNat_lt).map
  have same : w.toNat.toUInt16 = w := UInt16.ofNat_toNat
  rwa [same] at returns

theorem returns_word32 (w : UInt32) : Returns word32 w w := by
  have returns : Returns word32 w w.toNat.toUInt32 := (returns_natBelow w.toNat_lt).map
  have same : w.toNat.toUInt32 = w := UInt32.ofNat_toNat
  rwa [same] at returns

theorem returns_word64 (w : UInt64) : Returns word64 w w := by
  have returns : Returns word64 w w.toNat.toUInt64 := (returns_natBelow w.toNat_lt).map
  have same : w.toNat.toUInt64 = w := UInt64.ofNat_toNat
  rwa [same] at returns

theorem returns_text (s : String) : Returns text s s :=
  ⟨.str (some s), rfl⟩

/-- A name that belongs to no earlier choice returns as its choice. -/
theorem returns_choice {name : α → String} {all : List α} {a : α}
    (h : all.find? (fun b => name b = name a) = some a) : Returns (choice name all) a a :=
  ⟨.str (some (name a)), h⟩

/-- What a finite float returns as is what reading makes of its numeral. -/
theorem returns_float_iff {x y : Float} (h : x.isFinite = true) :
    Returns float x y ↔ (dataStyle.numeral x).scaled? = some y := by
  have written : float.encode x = .num (dataStyle.numeral x) := if_pos h
  constructor
  · intro returns
    have read := returns.decoded
    rw [written] at read
    exact read
  · intro read
    refine ⟨written ▸ .num (legible_numeral x), ?_⟩
    rw [written]
    exact read

theorem returns_float {x : Float} (h : x.isFinite = true) :
    ∃ y, Returns float x y ∧ y.isFinite = true := by
  obtain ⟨y, read, finite⟩ := exists_scaled?_numeral h
  exact ⟨y, (returns_float_iff h).mpr read, finite⟩

theorem encode_float_ne_null {x : Float} (h : x.isFinite = true) : float.encode x ≠ .null := by
  have written : float.encode x = .num (dataStyle.numeral x) := if_pos h
  rw [written]
  exact nofun

/-- A value that may be absent is read as one that may not, unless it is null. -/
theorem decode_option {c : Codec α} {v : Value} (present : v ≠ .null) :
    c.option.decode v = (c.decode v).map some := by
  cases v with
  | null => exact absurd rfl present
  | _ => rfl

/-- A float that is not finite is written as null, which is read as nothing. -/
theorem finite_of_returns {x y : Float} (returns : Returns float x y) : x.isFinite = true := by
  by_contra infinite
  have written : float.encode x = .null := if_neg infinite
  have read := returns.decoded
  rw [written] at read
  exact absurd read (by simp [float])

/-- A float that is written with few digits returns as it was. -/
theorem eq_of_returns_float {x y : Float} (short : (dataStyle.numeral x).Short)
    (returns : Returns float x y) : y = x := by
  have finite := finite_of_returns returns
  have read := (returns_float_iff finite).mp returns
  rw [Numeral.scaled?, scaled_numeral finite short, if_pos finite] at read
  exact (Option.some.inj read).symm

theorem mapM_of_returns {c : Codec α} {as bs : List α} (h : List.Forall₂ (Returns c) as bs) :
    (as.map c.encode).mapM c.decode = some bs := by
  induction h with
  | nil => rfl
  | cons first rest ih =>
      rw [List.map_cons, List.mapM_cons, first.decoded, ih]
      rfl

theorem legible_of_returns {c : Codec α} {as bs : List α} (h : List.Forall₂ (Returns c) as bs) :
    ∀ a ∈ as, (c.encode a).Legible := by
  induction h with
  | nil => exact fun a ha => absurd ha (by simp)
  | cons first rest ih =>
      intro a ha
      rcases List.mem_cons.mp ha with rfl | ha
      · exact first.legible
      · exact ih a ha

theorem returns_list {c : Codec α} {as bs : List α} (h : List.Forall₂ (Returns c) as bs) :
    Returns (list c) as bs := by
  refine ⟨.arr fun v hv => ?_, mapM_of_returns h⟩
  obtain ⟨a, ha, rfl⟩ := List.mem_map.mp hv
  exact legible_of_returns h a ha

theorem returns_words (ws : List UInt64) : Returns (list word64) ws ws :=
  returns_list (List.forall₂_same.mpr fun w _ => returns_word64 w)

/-- Only finite floats are read. -/
theorem finite_of_decode_floats {v : Value} {xs : List Float}
    (h : (list float).decode v = some xs) : ∀ x ∈ xs, x.isFinite = true := by
  have items : ∀ (vs : List Value) (xs : List Float), vs.mapM float.decode = some xs →
      ∀ x ∈ xs, x.isFinite = true := by
    intro vs
    induction vs with
    | nil =>
        intro xs read
        obtain rfl : [] = xs := by simpa using read
        simp
    | cons v vs ih =>
        intro xs read
        rw [List.mapM_cons] at read
        obtain ⟨x, first, read⟩ := Option.bind_eq_some_iff.mp read
        obtain ⟨ys, rest, eq⟩ := Option.bind_eq_some_iff.mp read
        obtain rfl := Option.some.inj eq
        refine List.forall_mem_cons.mpr ⟨?_, ih ys rest⟩
        cases v with
        | num n => exact Numeral.isFinite_of_scaled? first
        | _ => exact absurd first (by simp [float])
  cases v with
  | arr vs => exact items vs xs h
  | _ => exact absurd h (by simp [list])

end Codec

/-! ### Records -/

variable {ρ : Type}

theorem Field.exists_of_optional {name : String} {c : Codec α} {get : ρ → α} {set : α → ρ → ρ}
    {v : Value} {r r' : ρ} (h : (Field.optional name c get set).read v r = some r') :
    ∃ a, c.decode v = some a ∧ r' = set a r := by
  obtain ⟨a, decoded, eq⟩ := Option.map_eq_some_iff.mp h
  exact ⟨a, decoded, eq.symm⟩

section Reading

variable {r : Record ρ} {P : ρ → Prop}
  (field : ∀ f ∈ r.fields, ∀ v a b, P a → f.read v a = some b → P b)

include field

theorem Record.readMembers_induction {seen seen' : List String} {a b : ρ}
    {ms : List (Literal × Value)} (start : P a)
    (read : r.readMembers seen a ms = some (seen', b)) : P b := by
  induction ms generalizing seen a with
  | nil =>
      obtain ⟨-, rfl⟩ := Prod.mk.inj (Option.some.inj read)
      exact start
  | cons m ms ih =>
      rcases m with ⟨_ | k, v⟩
      · exact absurd read (by simp [Record.readMembers])
      · simp only [Record.readMembers] at read
        split at read
        · exact ih start read
        · rename_i f found
          split at read
          · exact absurd read (by simp)
          · split at read
            · exact absurd read (by simp)
            · rename_i next taken
              exact ih (field f (List.mem_of_find?_eq_some found) v a next start taken) read

theorem Record.readItems_induction {fs : List (Field ρ)} {a b : ρ} {vs : List Value}
    (known : ∀ f ∈ fs, f ∈ r.fields) (start : P a) (read : Record.readItems fs a vs = some b) :
    P b := by
  induction vs generalizing fs a with
  | nil =>
      simp only [Record.readItems] at read
      split at read
      · exact absurd read (by simp)
      · exact Option.some.inj read ▸ start
  | cons v vs ih =>
      cases fs with
      | nil => exact absurd read (by simp [Record.readItems])
      | cons f fs =>
          simp only [Record.readItems] at read
          obtain ⟨next, taken, read⟩ := Option.bind_eq_some_iff.mp read
          obtain ⟨first, rest⟩ := List.forall_mem_cons.mp known
          exact ih rest (field f first v a next start taken) read

/-- What holds of the blank record and survives the reading of each field holds of every record
that is read, from members or from items. -/
theorem Record.decode_induction (blank : P r.blank) {v : Value} {a : ρ}
    (h : r.codec.decode v = some a) : P a := by
  cases v with
  | obj ms =>
      simp only [Record.codec] at h
      split at h
      · exact absurd h (by simp)
      · rename_i seen b read
        split at h
        · exact Option.some.inj h ▸ readMembers_induction field blank read
        · exact absurd h (by simp)
  | arr vs => exact readItems_induction field (fun f hf => hf) blank h
  | _ => exact absurd h (by simp [Record.codec])

end Reading

theorem Field.read_optional {name : String} {c : Codec α} {get : ρ → α} {set : α → ρ → ρ}
    {v : Value} {a : α} {r : ρ} (h : c.decode v = some a) :
    (Field.optional name c get set).read v r = some (set a r) := by
  simp only [Field.optional, h, Option.map_some]

theorem Field.read_ifPresent {name : String} {c : Codec α} {get : ρ → Option α}
    {set : Option α → ρ → ρ} {v : Value} {a : α} {r : ρ} (present : v ≠ .null)
    (h : c.decode v = some a) : (Field.ifPresent name c get set).read v r = some (set (some a) r) := by
  simp only [Field.ifPresent, Codec.decode_option present, h, Option.map_some]

/-- A member is read by the field of its name. -/
theorem Record.readMembers_cons {r : Record ρ} {f : Field ρ} {k : String} {seen : List String}
    {v : Value} {a b : ρ} {ms : List (Literal × Value)}
    (found : r.fields.find? (fun f => f.name = k) = some f) (fresh : k ∉ seen)
    (taken : f.read v a = some b) :
    r.readMembers seen a ((some k, v) :: ms) = r.readMembers (k :: seen) b ms := by
  simp only [Record.readMembers, found, if_neg fresh, taken]

/-- The fields of `a` as they are written, read one after another into a record, make `b` of it. A
field that is not required may be left out. -/
inductive Rereads (a : ρ) : List (Field ρ) → ρ → ρ → Prop
  | nil {r : ρ} : Rereads a [] r r
  | cons {f : Field ρ} {fs : List (Field ρ)} {v : Value} {r r' b : ρ}
      (written : f.write a = some v) (legible : v.Legible) (taken : f.read v r = some r')
      (rest : Rereads a fs r' b) : Rereads a (f :: fs) r b
  | skip {f : Field ρ} {fs : List (Field ρ)} {r b : ρ} (absent : f.write a = none)
      (free : f.required = false) (rest : Rereads a fs r b) : Rereads a (f :: fs) r b

namespace Rereads

variable {a b r : ρ} {fs : List (Field ρ)}

/-- A field is read as what its value returns as. -/
theorem optional {name : String} {c : Codec α} {get : ρ → α} {set : α → ρ → ρ} {x : α}
    (h : Returns c (get a) x) (rest : Rereads a fs (set x r) b) :
    Rereads a (Field.optional name c get set :: fs) r b :=
  .cons rfl h.legible (Field.read_optional h.decoded) rest

/-- A field that may be absent is read as what its value returns as, and left out it is absent again. -/
theorem ifPresent {name : String} {c : Codec α} {get : ρ → Option α} {set : Option α → ρ → ρ}
    {g : α → α} (h : ∀ x, get a = some x → Returns c x (g x) ∧ c.encode x ≠ .null)
    (blank : set none r = r) (rest : Rereads a fs (set ((get a).map g) r) b) :
    Rereads a (Field.ifPresent name c get set :: fs) r b := by
  cases value : get a with
  | none =>
      rw [value, Option.map_none, blank] at rest
      exact .skip (congrArg (Option.map c.encode) value) rfl rest
  | some x =>
      obtain ⟨returns, present⟩ := h x value
      rw [value, Option.map_some] at rest
      exact .cons (congrArg (Option.map c.encode) value) returns.legible
        (Field.read_ifPresent present returns.decoded) rest

theorem legible_members (h : Rereads a fs r b) :
    ∀ m ∈ fs.filterMap fun f => (f.write a).map fun v => ((some f.name : Literal), v),
      m.2.Legible := by
  induction h with
  | nil => simp
  | cons written legible _ _ ih =>
      rw [List.filterMap_cons_some (by rw [written, Option.map_some])]
      exact List.forall_mem_cons.mpr ⟨legible, ih⟩
  | skip absent _ _ ih =>
      rw [List.filterMap_cons_none (by rw [absent, Option.map_none])]
      exact ih

/-- Members are read by the fields that wrote them, and none that is required is missing. -/
theorem readMembers {rec : Record ρ} {seen : List String} (h : Rereads a fs r b)
    (known : ∀ f ∈ fs, rec.fields.find? (fun g => g.name = f.name) = some f)
    (distinct : (fs.map (·.name)).Nodup) (fresh : ∀ f ∈ fs, f.name ∉ seen) :
    ∃ seen', rec.readMembers seen r
        (fs.filterMap fun f => (f.write a).map fun v => ((some f.name : Literal), v)) =
          some (seen', b) ∧
      seen ⊆ seen' ∧ ∀ f ∈ fs, f.required = true → f.name ∈ seen' := by
  induction h generalizing seen with
  | nil => exact ⟨seen, rfl, List.Subset.refl seen, by simp⟩
  | @cons f fs v r r' b written _ taken _ ih =>
      obtain ⟨first, others⟩ := List.forall_mem_cons.mp known
      obtain ⟨new, unread⟩ := List.forall_mem_cons.mp fresh
      rw [List.map_cons, List.nodup_cons] at distinct
      have apart : ∀ g ∈ fs, g.name ∉ f.name :: seen := by
        intro g hg
        rw [List.mem_cons, not_or]
        exact ⟨fun same => distinct.1 (same ▸ List.mem_map_of_mem hg), unread g hg⟩
      obtain ⟨seen', read, more, given⟩ := ih others distinct.2 apart
      refine ⟨seen', ?_, List.Subset.trans (List.subset_cons_self ..) more, ?_⟩
      · rw [List.filterMap_cons_some (by rw [written, Option.map_some]),
          Record.readMembers_cons first new taken, read]
      · exact List.forall_mem_cons.mpr ⟨fun _ => more List.mem_cons_self, given⟩
  | skip absent free _ ih =>
      obtain ⟨-, others⟩ := List.forall_mem_cons.mp known
      obtain ⟨-, unread⟩ := List.forall_mem_cons.mp fresh
      rw [List.map_cons, List.nodup_cons] at distinct
      obtain ⟨seen', read, more, given⟩ := ih others distinct.2 unread
      refine ⟨seen', ?_, more, List.forall_mem_cons.mpr ⟨?_, given⟩⟩
      · rw [List.filterMap_cons_none (by rw [absent, Option.map_none]), read]
      · intro required
        exact absurd (required.symm.trans free) (by decide)

end Rereads

theorem Field.find?_name {fs : List (Field ρ)} (distinct : (fs.map (·.name)).Nodup) {f : Field ρ}
    (hf : f ∈ fs) : fs.find? (fun g => g.name = f.name) = some f := by
  induction fs with
  | nil => exact absurd hf (by simp)
  | cons g fs ih =>
      rw [List.map_cons, List.nodup_cons] at distinct
      rcases List.mem_cons.mp hf with rfl | hf
      · exact List.find?_cons_of_pos (by simp)
      · have other : g.name ≠ f.name := fun same => distinct.1 (same ▸ List.mem_map_of_mem hf)
        rw [List.find?_cons_of_neg (by simpa using other)]
        exact ih distinct.2 hf

/-- **A record returns as what its fields return as**, if no two of them have the same name. -/
theorem Record.returns_of_rereads {rec : Record ρ} {a b : ρ}
    (distinct : (rec.fields.map (·.name)).Nodup) (h : Rereads a rec.fields rec.blank b) :
    Returns rec.codec a b := by
  obtain ⟨seen, read, -, given⟩ :
      ∃ seen, rec.readMembers [] rec.blank (rec.members a) = some (seen, b) ∧ [] ⊆ seen ∧
        ∀ f ∈ rec.fields, f.required = true → f.name ∈ seen :=
    h.readMembers (fun f hf => Field.find?_name distinct hf) distinct (by simp)
  refine ⟨.obj h.legible_members, ?_⟩
  show rec.codec.decode (.obj (rec.members a)) = some b
  simp only [Record.codec, read]
  refine if_pos (List.all_eq_true.mpr fun f hf => ?_)
  rw [Bool.or_eq_true, Bool.not_eq_true', List.contains_iff_mem]
  exact (Bool.eq_false_or_eq_true f.required).symm.imp_right (given f hf)

end MinerWatch.Json
