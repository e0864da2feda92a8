import MinerWatch.Proofs.Json.Token
/-!
Which texts contain the word null.

The text of a value contains the texts of what is in the value (`infix_arr`, `infix_obj`), so a null
shows wherever it is. In the other direction each character of a text is a mark or comes from such a
part (`mem_arr`, `mem_obj`), and no mark and no number has the letter n.
-/

namespace MinerWatch.Json

open MinerWatch.Decimal

def HasNull (text : String) : Prop :=
  ['n', 'u', 'l', 'l'] <:+: text.toList

instance (text : String) : Decidable (HasNull text) :=
  inferInstanceAs (Decidable (_ <:+: _))

variable {c : Char} {v : Value} {vs : List Value} {m : Literal × Value} {ms : List (Literal × Value)}

/-! ### Where a character comes from -/

theorem mem_spell {n : Numeral} (h : c ∈ n.spell) :
    c ∈ ['-', '+', '.', 'e'] ∨ ∃ d : Digit, c = d.char := by
  have digits {ds : List Digit} (mem : c ∈ ds.map Digit.char) : ∃ d : Digit, c = d.char := by
    obtain ⟨d, -, rfl⟩ := List.mem_map.mp mem
    exact ⟨d, rfl⟩
  rw [spell_eq] at h
  simp only [List.mem_append] at h
  rcases h with sign | whole | fraction | exponent
  · left
    split at sign
    · simp [List.mem_singleton.mp sign]
    · exact absurd sign (by simp)
  · exact .inr (digits whole)
  · unfold fractionText at fraction
    split at fraction
    · exact absurd fraction (by simp)
    · rcases List.mem_cons.mp fraction with rfl | mem
      · exact .inl (by decide)
      · exact .inr (digits mem)
  · cases e : n.exponent with
    | none => exact absurd exponent (by simp [e, exponentText])
    | some x =>
        rw [e, exponentText] at exponent
        rcases List.mem_cons.mp exponent with rfl | rest
        · exact .inl (by decide)
        · rcases List.mem_cons.mp rest with rfl | mem
          · left
            split <;> decide
          · exact .inr (digits mem)

theorem mem_renderItems (h : c ∈ renderItems vs) : c ∈ [',', ']'] ∨ ∃ v ∈ vs, c ∈ render v := by
  induction vs with
  | nil =>
      rw [renderItems, List.mem_singleton] at h
      exact .inl (by simp [h])
  | cons v vs ih =>
      simp only [renderItems, List.mem_cons, List.mem_append] at h
      rcases h with rfl | first | rest
      · exact .inl (by decide)
      · exact .inr ⟨v, List.mem_cons_self, first⟩
      · rcases ih rest with mark | ⟨w, mem, inside⟩
        · exact .inl mark
        · exact .inr ⟨w, List.mem_cons_of_mem v mem, inside⟩

theorem mem_arr (h : c ∈ render (.arr vs)) : c ∈ ['[', ',', ']'] ∨ ∃ v ∈ vs, c ∈ render v := by
  cases vs with
  | nil =>
      simp only [render, List.mem_cons, List.not_mem_nil, or_false] at h
      rcases h with rfl | rfl <;> exact .inl (by decide)
  | cons v vs =>
      simp only [render, List.mem_cons] at h
      rcases h with rfl | rest
      · exact .inl (by decide)
      · -- The rest is the text of the items, but for the comma before the first.
        have items : c ∈ renderItems (v :: vs) := by
          rw [renderItems]
          exact List.mem_cons_of_mem _ rest
        rcases mem_renderItems items with mark | inside
        · exact .inl (List.mem_cons_of_mem _ mark)
        · exact .inr inside

theorem mem_renderMembers (h : c ∈ renderMembers ms) :
    c ∈ [',', ':', '\x7d'] ∨ ∃ m ∈ ms, c ∈ renderLiteral m.1 ∨ c ∈ render m.2 := by
  induction ms with
  | nil =>
      rw [renderMembers, List.mem_singleton] at h
      exact .inl (by simp [h])
  | cons m ms ih =>
      simp only [renderMembers, List.mem_cons, List.mem_append] at h
      rcases h with rfl | name | rfl | value | rest
      · exact .inl (by decide)
      · exact .inr ⟨m, List.mem_cons_self, .inl name⟩
      · exact .inl (by decide)
      · exact .inr ⟨m, List.mem_cons_self, .inr value⟩
      · rcases ih rest with mark | ⟨o, mem, inside⟩
        · exact .inl mark
        · exact .inr ⟨o, List.mem_cons_of_mem m mem, inside⟩

theorem mem_obj (h : c ∈ render (.obj ms)) :
    c ∈ ['\x7b', ',', ':', '\x7d'] ∨ ∃ m ∈ ms, c ∈ renderLiteral m.1 ∨ c ∈ render m.2 := by
  cases ms with
  | nil =>
      simp only [render, List.mem_cons, List.not_mem_nil, or_false] at h
      rcases h with rfl | rfl <;> exact .inl (by decide)
  | cons m ms =>
      simp only [render, List.mem_cons] at h
      rcases h with rfl | rest
      · exact .inl (by decide)
      · have members : c ∈ renderMembers (m :: ms) := by
          rw [renderMembers]
          exact List.mem_cons_of_mem _ rest
        rcases mem_renderMembers members with mark | inside
        · exact .inl (List.mem_cons_of_mem _ mark)
        · exact .inr inside

/-- There is no n in a list of numbers. -/
theorem n_not_mem_numbers (numbers : ∀ v ∈ vs, ∃ n, v = .num n) : 'n' ∉ render (.arr vs) := by
  intro h
  rcases mem_arr h with mark | ⟨v, mem, inside⟩
  · exact absurd mark (by decide)
  · obtain ⟨n, rfl⟩ := numbers v mem
    rw [render] at inside
    rcases mem_spell inside with mark | ⟨d, same⟩
    · exact absurd mark (by decide)
    · revert d
      decide

/-! ### Texts inside a text -/

theorem infix_renderItems (mem : v ∈ vs) : render v <:+: renderItems vs := by
  induction vs with
  | nil => exact absurd mem (by simp)
  | cons w vs ih =>
      rcases List.mem_cons.mp mem with rfl | later
      · exact ⟨[','], renderItems vs, by simp [renderItems]⟩
      · obtain ⟨before, after, eq⟩ := ih later
        exact ⟨',' :: (render w ++ before), after, by simp [renderItems, ← eq]⟩

theorem infix_arr (mem : v ∈ vs) : render v <:+: render (.arr vs) := by
  cases vs with
  | nil => exact absurd mem (by simp)
  | cons w vs =>
      rcases List.mem_cons.mp mem with rfl | later
      · exact ⟨['['], renderItems vs, by simp [render]⟩
      · obtain ⟨before, after, eq⟩ := infix_renderItems later
        exact ⟨'[' :: (render w ++ before), after, by simp [render, ← eq]⟩

theorem infix_renderMembers (mem : m ∈ ms) : render m.2 <:+: renderMembers ms := by
  induction ms with
  | nil => exact absurd mem (by simp)
  | cons o ms ih =>
      rcases List.mem_cons.mp mem with rfl | later
      · exact ⟨',' :: (renderLiteral m.1 ++ [':']), renderMembers ms, by simp [renderMembers]⟩
      · obtain ⟨before, after, eq⟩ := ih later
        exact ⟨',' :: (renderLiteral o.1 ++ ':' :: (render o.2 ++ before)), after,
          by simp [renderMembers, ← eq]⟩

theorem infix_obj (mem : m ∈ ms) : render m.2 <:+: render (.obj ms) := by
  cases ms with
  | nil => exact absurd mem (by simp)
  | cons o ms =>
      rcases List.mem_cons.mp mem with rfl | later
      · exact ⟨'\x7b' :: (renderLiteral m.1 ++ [':']), renderMembers ms, by simp [render]⟩
      · obtain ⟨before, after, eq⟩ := infix_renderMembers later
        exact ⟨'\x7b' :: (renderLiteral o.1 ++ ':' :: (render o.2 ++ before)), after,
          by simp [render, ← eq]⟩

end MinerWatch.Json
