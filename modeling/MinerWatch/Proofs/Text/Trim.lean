import Mathlib.Data.List.DropRight
import MinerWatch.Text.Query
/-!
What trimming leaves, and when an origin that was brought into shape is in shape.

`originOf` trims twice, white space first and slashes second. The second trim can bare white
space that the first one would have taken; `originOf_originOf_eq_iff` says that this is the only
way in which an origin is changed once more, and `endsIn_originOf_iff` from which texts it
comes.
-/

namespace MinerWatch.Text

variable {p : Char → Bool} {cs ds : List Char}

/-! ### The ends of a text -/

def StartsIn (p : Char → Bool) (cs : List Char) : Prop :=
  ∃ c rest, cs = c :: rest ∧ p c = true

def EndsIn (p : Char → Bool) (cs : List Char) : Prop :=
  ∃ front c, cs = front ++ [c] ∧ p c = true

theorem StartsIn.mono (h : StartsIn p cs) (pre : cs <+: ds) : StartsIn p ds := by
  obtain ⟨c, rest, rfl, hc⟩ := h
  obtain ⟨more, rfl⟩ := pre
  exact ⟨c, rest ++ more, rfl, hc⟩

theorem StartsIn.exists_mem (h : StartsIn p cs) : ∃ c ∈ cs, p c = true := by
  obtain ⟨c, rest, rfl, hc⟩ := h
  exact ⟨c, List.mem_cons_self, hc⟩

theorem EndsIn.exists_mem (h : EndsIn p cs) : ∃ c ∈ cs, p c = true := by
  obtain ⟨front, c, rfl, hc⟩ := h
  exact ⟨c, by simp, hc⟩

theorem endsIn_concat (front : List Char) (c : Char) : EndsIn p (front ++ [c]) ↔ p c = true := by
  refine ⟨?_, fun h => ⟨front, c, rfl, h⟩⟩
  rintro ⟨front', c', eq, h⟩
  obtain ⟨-, same⟩ := List.append_inj' eq rfl
  exact (List.cons.inj same).1 ▸ h

theorem dropEnd_eq_rdropWhile (p : Char → Bool) (cs : List Char) :
    dropEnd p cs = cs.rdropWhile p := rfl

theorem front_dropEnd (p : Char → Bool) (cs : List Char) : dropEnd p cs <+: cs :=
  List.rdropWhile_prefix p cs

theorem dropWhile_eq_self_iff : cs.dropWhile p = cs ↔ ¬ StartsIn p cs := by
  rw [List.dropWhile_eq_self_iff]
  cases cs with
  | nil => simp [StartsIn]
  | cons c cs => simp [StartsIn]

theorem dropEnd_eq_self_iff : dropEnd p cs = cs ↔ ¬ EndsIn p cs := by
  rw [dropEnd_eq_rdropWhile, List.rdropWhile_eq_self_iff]
  rcases List.eq_nil_or_concat cs with rfl | ⟨front, c, rfl⟩
  · simp [EndsIn]
  · simp [endsIn_concat]

theorem not_startsIn_dropWhile : ¬ StartsIn p (cs.dropWhile p) :=
  dropWhile_eq_self_iff.mp (List.dropWhile_idempotent p cs)

theorem not_endsIn_dropEnd : ¬ EndsIn p (dropEnd p cs) :=
  dropEnd_eq_self_iff.mp (List.rdropWhile_idempotent p cs)

/-! ### White space at both ends -/

theorem not_startsIn_trim : ¬ StartsIn isBlank (trim cs) :=
  fun h => not_startsIn_dropWhile (h.mono (front_dropEnd isBlank _))

theorem not_endsIn_trim : ¬ EndsIn isBlank (trim cs) :=
  not_endsIn_dropEnd

theorem trim_eq_self_iff : trim cs = cs ↔ ¬ StartsIn isBlank cs ∧ ¬ EndsIn isBlank cs := by
  constructor
  · intro h
    exact ⟨h ▸ not_startsIn_trim, h ▸ not_endsIn_trim⟩
  · rintro ⟨start, stop⟩
    rw [trim, dropWhile_eq_self_iff.mpr start, dropEnd_eq_self_iff.mpr stop]

theorem trim_of_graphic (h : ∀ c ∈ cs, isBlank c = false) : trim cs = cs := by
  have graphic : ¬ ∃ c ∈ cs, isBlank c = true := by
    rintro ⟨c, hc, blank⟩
    exact absurd (h c hc) (by simp [blank])
  exact trim_eq_self_iff.mpr ⟨mt StartsIn.exists_mem graphic, mt EndsIn.exists_mem graphic⟩

/-! ### Origins -/

/-- What is dropped at the end of an origin. -/
def isSlash (c : Char) : Bool :=
  c = '/'

theorem toList_originOf (s : String) : (originOf s).toList = dropEnd isSlash (trim s.toList) :=
  String.toList_ofList

theorem front_originOf (s : String) : (originOf s).toList <+: trim s.toList := by
  rw [toList_originOf]
  exact front_dropEnd isSlash _

theorem not_startsIn_originOf (s : String) : ¬ StartsIn isBlank (originOf s).toList :=
  fun h => not_startsIn_trim (h.mono (front_originOf s))

theorem not_endsIn_slash_originOf (s : String) : ¬ EndsIn isSlash (originOf s).toList := by
  rw [toList_originOf]
  exact not_endsIn_dropEnd

/-- **An origin in shape stays as it is, unless it ends in white space.** -/
theorem originOf_originOf_eq_iff (s : String) :
    originOf (originOf s) = originOf s ↔ ¬ EndsIn isBlank (originOf s).toList := by
  have start := dropWhile_eq_self_iff.mpr (not_startsIn_originOf s)
  have slash := dropEnd_eq_self_iff.mpr (not_endsIn_slash_originOf s)
  rw [← String.toList_inj, toList_originOf (originOf s), trim, start]
  constructor
  · intro same
    -- Neither trim lengthens a text, so the first one has nothing to drop.
    have kept : (originOf s).toList.length ≤ (dropEnd isBlank (originOf s).toList).length := by
      conv_lhs => rw [← same]
      exact (front_dropEnd isSlash _).length_le
    exact dropEnd_eq_self_iff.mp ((front_dropEnd isBlank _).eq_of_length_le kept)
  · intro stop
    rw [dropEnd_eq_self_iff.mpr stop, slash]

/-- Within the white space around it, the text ends in slashes with white space before them. -/
def BlankBeforeSlashes (s : String) : Prop :=
  ∃ front c n, isBlank c = true ∧ trim s.toList = front ++ c :: List.replicate (n + 1) '/'

theorem dropEnd_slashes {front : List Char} {c : Char} (hc : isSlash c = false) (n : Nat) :
    dropEnd isSlash (front ++ c :: List.replicate n '/') = front ++ [c] := by
  induction n with
  | zero =>
      exact dropEnd_eq_self_iff.mpr fun h => absurd ((endsIn_concat front c).mp h) (by simp [hc])
  | succ n ih =>
      rw [List.replicate_succ', ← List.cons_append, ← List.append_assoc, dropEnd_eq_rdropWhile,
        List.rdropWhile_concat_pos _ _ _ rfl]
      exact ih

theorem exists_slashes (cs : List Char) : ∃ n, cs = dropEnd isSlash cs ++ List.replicate n '/' := by
  have slashes : cs.rtakeWhile isSlash = List.replicate (cs.rtakeWhile isSlash).length '/' :=
    List.eq_replicate_of_mem fun c hc => by
      simpa [isSlash] using List.mem_rtakeWhile_imp hc
  refine ⟨(cs.rtakeWhile isSlash).length, ?_⟩
  rw [← slashes]
  exact List.rdropWhile_append_rtakeWhile.symm

/-- The origin ends in white space exactly if slashes hid it from the first trim. -/
theorem endsIn_originOf_iff (s : String) :
    EndsIn isBlank (originOf s).toList ↔ BlankBeforeSlashes s := by
  rw [toList_originOf]
  constructor
  · rintro ⟨front, c, eq, blank⟩
    obtain ⟨n, whole⟩ := exists_slashes (trim s.toList)
    rw [eq] at whole
    cases n with
    | zero =>
        have stop : EndsIn isBlank (trim s.toList) := ⟨front, c, by simpa using whole, blank⟩
        exact absurd stop not_endsIn_trim
    | succ n => exact ⟨front, c, n, blank, by simpa using whole⟩
  · rintro ⟨front, c, n, blank, whole⟩
    have graphic : isSlash c = false := by
      by_contra slash
      obtain rfl : c = '/' := by simpa [isSlash] using slash
      exact absurd blank (by decide)
    exact ⟨front, c, by rw [whole, dropEnd_slashes graphic], blank⟩

end MinerWatch.Text
