import MinerWatch.Proofs.Json.Token
/-!
Every value is read back as it was written.

`Legible` asks one thing of a value: that its numerals are spelled as the grammar wants
them. The proof goes along the value, and the texts of items and members after it. The fuel
that reading needs is twice the length of the text, since each function reads a character
before it comes around again.
-/

namespace MinerWatch.Json

open MinerWatch.Decimal

/-- All numerals in the value are spelled as the grammar wants them. -/
inductive Value.Legible : Value → Prop where
  | null : Legible .null
  | bool (b : Bool) : Legible (.bool b)
  | num {n : Numeral} (h : n.Legible) : Legible (.num n)
  | str (s : Literal) : Legible (.str s)
  | arr {vs : List Value} (h : ∀ v ∈ vs, Legible v) : Legible (.arr vs)
  | obj {ms : List (Literal × Value)} (h : ∀ m ∈ ms, Legible m.2) : Legible (.obj ms)

/-- The value is read back from its text, whatever follows. -/
def ReadsBack (v : Value) : Prop :=
  ∀ fuel rest, Stops rest → 2 * (render v).length ≤ fuel →
    readValue fuel (render v ++ rest) = some (v, rest)

/-- A value starts with a character that is neither white space nor the end of a list. -/
theorem render_head {v : Value} (h : v.Legible) :
    ∃ c cs, render v = c :: cs ∧ isSpace c = false ∧ c ≠ ']' := by
  cases h with
  | null => exact ⟨_, _, rfl, by decide, by decide⟩
  | bool b => cases b <;> exact ⟨_, _, rfl, by decide, by decide⟩
  | num h => exact spell_head h (by decide) (by decide)
  | str s => cases s <;> exact ⟨_, _, rfl, by decide, by decide⟩
  | @arr vs h => cases vs <;> exact ⟨_, _, rfl, by decide, by decide⟩
  | @obj ms h => cases ms <;> exact ⟨_, _, rfl, by decide, by decide⟩

theorem skipSpace_cons {c : Char} (h : isSpace c = false) (cs : List Char) :
    skipSpace (c :: cs) = c :: cs := by
  simp [skipSpace, h]

theorem skipSpace_render {v : Value} (h : v.Legible) (rest : List Char) :
    skipSpace (render v ++ rest) = render v ++ rest := by
  obtain ⟨c, cs, eq, graphic, -⟩ := render_head h
  rw [eq, List.cons_append, skipSpace_cons graphic]

theorem exists_succ_of_render_le {v : Value} (h : v.Legible) {fuel : Nat}
    (enough : 2 * (render v).length ≤ fuel) : ∃ n, fuel = n + 1 := by
  obtain ⟨c, cs, eq, -⟩ := render_head h
  rw [eq, List.length_cons] at enough
  exact ⟨fuel - 1, by omega⟩

theorem readsBack_num {n : Numeral} (h : n.Legible) : ReadsBack (.num n) := by
  intro fuel rest stops enough
  obtain ⟨fuel, rfl⟩ := exists_succ_of_render_le (.num h) enough
  obtain ⟨c, cs, eq, quote, bracket, brace, null, true_, false_⟩ :
      ∃ c cs, n.spell = c :: cs ∧
        c ≠ '"' ∧ c ≠ '[' ∧ c ≠ '\x7b' ∧ c ≠ 'n' ∧ c ≠ 't' ∧ c ≠ 'f' :=
    spell_head h (by decide) (by decide)
  have read := readNumber_spell h stops
  rw [eq, List.cons_append] at read
  rw [readValue, skipSpace_render (.num h)]
  simp only [render, eq, List.cons_append, quote, bracket, brace, null, true_, false_, if_false, read,
    Option.map_some]

theorem readsBack_str (s : Literal) : ReadsBack (.str s) := by
  intro fuel rest stops enough
  obtain ⟨fuel, rfl⟩ := exists_succ_of_render_le (.str s) enough
  obtain ⟨cs, eq, read⟩ := readLiteral_render s rest
  rw [readValue, skipSpace_render (.str s)]
  simp only [render, eq, List.cons_append, if_true, read, Option.map_some]

/-! ### Items -/

theorem stops_renderItems (vs : List Value) (rest : List Char) : Stops (renderItems vs ++ rest) := by
  cases vs with
  | nil => exact stops_bracket rest
  | cons v vs => exact stops_comma _

/-- Items are read back up to their closing bracket. -/
theorem readItems_render {v : Value} {vs : List Value} (reads : ∀ w ∈ v :: vs, ReadsBack w)
    (fuel : Nat) (rest : List Char)
    (enough : 2 * ((render v).length + (renderItems vs).length) < fuel) :
    readItems fuel (render v ++ (renderItems vs ++ rest)) = some (v :: vs, rest) := by
  induction vs generalizing v fuel with
  | nil =>
      obtain ⟨fuel, rfl⟩ : ∃ n, fuel = n + 1 := ⟨fuel - 1, by omega⟩
      have read := reads v (by simp) fuel _ (stops_renderItems [] rest) (by omega)
      rw [readItems, read]
      rfl
  | cons w ws ih =>
      obtain ⟨fuel, rfl⟩ : ∃ n, fuel = n + 1 := ⟨fuel - 1, by omega⟩
      have read := reads v (by simp) fuel _ (stops_renderItems (w :: ws) rest) (by omega)
      have length : (renderItems (w :: ws)).length = 1 + (render w).length + (renderItems ws).length := by
        simp [renderItems]
        omega
      have items := ih (v := w) (fun u hu => reads u (List.mem_cons_of_mem _ hu)) fuel
        (by omega)
      rw [readItems, read]
      show (readItems fuel ((render w ++ renderItems ws) ++ rest)).map _ = _
      rw [List.append_assoc, items]
      rfl

/-- A list with items is read by its items. -/
theorem readValue_of_readItems {fuel : Nat} {cs ds : List Char} {d : Char} {vs : List Value}
    {rest : List Char} (start : skipSpace cs = d :: ds) (ne : d ≠ ']')
    (items : readItems fuel (d :: ds) = some (vs, rest)) :
    readValue (fuel + 1) ('[' :: cs) = some (.arr vs, rest) := by
  have bracket : skipSpace ('[' :: cs) = '[' :: cs := skipSpace_cons (by decide) cs
  simp only [readValue, bracket, start]
  rw [if_neg (by decide), if_pos trivial]
  split
  · rename_i eq
    exact absurd (List.cons.inj eq).1 ne
  · rw [items]
    rfl

/-- An object with members is read by its members. -/
theorem readValue_of_readMembers {fuel : Nat} {cs ds : List Char} {d : Char}
    {ms : List (Literal × Value)} {rest : List Char} (start : skipSpace cs = d :: ds)
    (ne : d ≠ '\x7d') (members : readMembers fuel (d :: ds) = some (ms, rest)) :
    readValue (fuel + 1) ('\x7b' :: cs) = some (.obj ms, rest) := by
  have brace : skipSpace ('\x7b' :: cs) = '\x7b' :: cs := skipSpace_cons (by decide) cs
  simp only [readValue, brace, start]
  rw [if_neg (by decide), if_neg (by decide), if_pos trivial, if_neg ne, members]
  rfl

theorem readsBack_arr {vs : List Value} (legible : ∀ v ∈ vs, v.Legible)
    (reads : ∀ v ∈ vs, ReadsBack v) : ReadsBack (.arr vs) := by
  intro fuel rest stops enough
  obtain ⟨fuel, rfl⟩ := exists_succ_of_render_le (.arr legible) enough
  cases vs with
  | nil =>
      rw [readValue, skipSpace_render (.arr legible)]
      rfl
  | cons v vs =>
      have length : (render (Value.arr (v :: vs))).length = 1 + (render v).length + (renderItems vs).length := by
        simp [render]
        omega
      have first := legible v (by simp)
      have items := readItems_render reads fuel rest (by omega)
      -- No item starts like the end of the list.
      obtain ⟨c, cs, head, -, ne⟩ := render_head first
      have start : skipSpace (render v ++ (renderItems vs ++ rest)) = c :: (cs ++ (renderItems vs ++ rest)) := by
        rw [skipSpace_render first, head, List.cons_append]
      rw [head, List.cons_append] at items
      show readValue (fuel + 1) ('[' :: ((render v ++ renderItems vs) ++ rest)) = _
      rw [List.append_assoc]
      exact readValue_of_readItems start ne items

/-! ### Members -/

theorem stops_renderMembers (ms : List (Literal × Value)) (rest : List Char) :
    Stops (renderMembers ms ++ rest) := by
  cases ms with
  | nil => exact stops_brace rest
  | cons m ms => exact stops_comma _

theorem readMembers_render {k : Literal} {v : Value} {ms : List (Literal × Value)}
    (reads : ∀ m ∈ (k, v) :: ms, ReadsBack m.2) (fuel : Nat) (rest : List Char)
    (enough : 2 * ((render v).length + (renderMembers ms).length) < fuel) :
    readMembers fuel (renderLiteral k ++ (':' :: (render v ++ (renderMembers ms ++ rest)))) =
      some ((k, v) :: ms, rest) := by
  induction ms generalizing k v fuel with
  | nil =>
      obtain ⟨fuel, rfl⟩ : ∃ n, fuel = n + 1 := ⟨fuel - 1, by omega⟩
      obtain ⟨cs, eq, literal⟩ := readLiteral_render k (':' :: (render v ++ (renderMembers [] ++ rest)))
      have read := reads (k, v) (by simp) fuel _ (stops_renderMembers [] rest)
        (show 2 * (render v).length ≤ fuel by omega)
      rw [eq, List.cons_append, readMembers, skipSpace_cons (by decide)]
      simp only [literal, skipSpace_cons (c := ':') (by decide), read]
      rfl
  | cons m ms ih =>
      obtain ⟨fuel, rfl⟩ : ∃ n, fuel = n + 1 := ⟨fuel - 1, by omega⟩
      obtain ⟨k', v'⟩ := m
      obtain ⟨cs, eq, literal⟩ :=
        readLiteral_render k (':' :: (render v ++ (renderMembers ((k', v') :: ms) ++ rest)))
      have length : (renderMembers ((k', v') :: ms)).length =
          2 + (renderLiteral k').length + (render v').length + (renderMembers ms).length := by
        simp [renderMembers]
        omega
      have read := reads (k, v) (by simp) fuel _ (stops_renderMembers ((k', v') :: ms) rest)
        (show 2 * (render v).length ≤ fuel by omega)
      have members := ih (k := k') (v := v') (fun m hm => reads m (List.mem_cons_of_mem _ hm)) fuel
        (by omega)
      rw [eq, List.cons_append, readMembers, skipSpace_cons (by decide)]
      simp only [literal, skipSpace_cons (c := ':') (by decide), read]
      simp only [renderMembers, List.cons_append, List.append_assoc, skipSpace_cons (c := ',') (by decide),
        if_true, members, Option.map_some]

theorem readsBack_obj {ms : List (Literal × Value)} (legible : ∀ m ∈ ms, m.2.Legible)
    (reads : ∀ m ∈ ms, ReadsBack m.2) : ReadsBack (.obj ms) := by
  intro fuel rest stops enough
  obtain ⟨fuel, rfl⟩ := exists_succ_of_render_le (.obj legible) enough
  cases ms with
  | nil =>
      rw [readValue, skipSpace_render (.obj legible)]
      rfl
  | cons m ms =>
      obtain ⟨k, v⟩ := m
      have length : (render (Value.obj ((k, v) :: ms))).length =
          2 + (renderLiteral k).length + (render v).length + (renderMembers ms).length := by
        simp [render]
        omega
      have members := readMembers_render reads fuel rest (by omega)
      obtain ⟨cs, eq, -⟩ := readLiteral_render k rest
      rw [eq, List.cons_append] at members
      simp only [render, eq, List.cons_append, List.append_assoc]
      exact readValue_of_readMembers (skipSpace_cons (by decide) _) (by decide) members

theorem Value.Legible.readsBack {v : Value} (h : v.Legible) : ReadsBack v := by
  induction h with
  | null =>
      intro fuel rest stops enough
      obtain ⟨fuel, rfl⟩ := exists_succ_of_render_le .null enough
      rfl
  | bool b =>
      intro fuel rest stops enough
      obtain ⟨fuel, rfl⟩ := exists_succ_of_render_le (.bool b) enough
      cases b <;> rfl
  | num h => exact readsBack_num h
  | str s => exact readsBack_str s
  | arr h ih => exact readsBack_arr h ih
  | obj h ih => exact readsBack_obj h ih

/-- **Every value is read back as it was written.** -/
theorem parse_toText {v : Value} (h : v.Legible) : parse v.toText = some v := by
  have read := h.readsBack (2 * (render v).length + 2) [] stops_nil (by omega)
  rw [List.append_nil] at read
  simp only [parse, Value.toText, String.toList_ofList, read]
  rfl

end MinerWatch.Json
