import MinerWatch.Proofs.Batch
import MinerWatch.Proofs.Series.Order
import MinerWatch.Series.Merge
/-!
What a merge makes of a series.

A batch is skipped, refused or taken in (`merge_cases`). One that is taken in leaves the
samples of the window and moves the cursor to the newest instant known, whatever trimming
did to it in between (`cursor_absorb`).
-/

namespace MinerWatch.Series

@[simp] theorem skipped_absorb (s : Series) (w : Window) (b : Batch) (now : Millis) :
    (s.absorb w b now).2.skipped = false := rfl

/-- All that can happen to a batch: it is skipped, refused or taken in. -/
theorem merge_cases (s : Series) (w : Window) (b : Batch) (now : Millis) :
    (b.isEmpty = true ∧ (s.merge w b now).value = (s, .ok ⟨0, 0, 0, s.cursor, true⟩)) ∨
    (∃ fault, b.isEmpty = false ∧ b.fault? = some fault ∧
      (s.merge w b now).value = (s, .error fault)) ∨
    (b.mergeable = true ∧
      (s.merge w b now).value = ((s.absorb w b now).1, .ok (s.absorb w b now).2)) := by
  by_cases empty : b.isEmpty = true
  · left
    exact ⟨empty, by simp only [merge, empty, if_true]; rfl⟩
  · right
    have filled := Bool.eq_false_iff.mpr empty
    cases fault : b.fault? with
    | some f =>
        left
        exact ⟨f, filled, rfl, by simp only [merge, empty, fault]; rfl⟩
    | none =>
        right
        refine ⟨Batch.mergeable_iff.mpr ⟨filled, fault⟩, ?_⟩
        simp only [merge, filled, Bool.false_eq_true, if_false, fault]
        split <;> rfl

theorem merge_of_not_mergeable (s : Series) (w : Window) {b : Batch} (now : Millis)
    (h : b.mergeable = false) : (s.merge w b now).value.1 = s := by
  rcases s.merge_cases w b now with ⟨-, eq⟩ | ⟨_, -, -, eq⟩ | ⟨taken, -⟩
  · rw [eq]
  · rw [eq]
  · exact absurd taken (by simp [h])

theorem merge_of_mergeable (s : Series) (w : Window) {b : Batch} (now : Millis)
    (h : b.mergeable = true) :
    (s.merge w b now).value = ((s.absorb w b now).1, .ok (s.absorb w b now).2) := by
  obtain ⟨filled, sound⟩ := Batch.mergeable_iff.mp h
  rcases s.merge_cases w b now with ⟨empty, -⟩ | ⟨_, -, fault, -⟩ | ⟨-, eq⟩
  · exact absurd empty (by simp [filled])
  · exact absurd fault (by simp [sound])
  · exact eq

@[simp] theorem samples_raiseCursor (s : Series) (t : Millis) :
    (s.raiseCursor t).samples = s.samples := rfl

/-- Taking a batch in leaves what is inside the window of the old samples and the newer ones. -/
theorem samples_absorb {s : Series} (h : Ordered s.samples) (w : Window) (b : Batch) (now : Millis) :
    (s.absorb w b now).1.samples =
      (s.samples ++ newerThan s.newest? b.samples).filter (fun p => w.floor now ≤ p.time) := by
  have trimmed := samples_trimBefore (ordered_append h b.samples) (w.floor now)
  simp only [absorb]
  split <;> simpa using trimmed

theorem ordered_absorb {s : Series} (h : Ordered s.samples) (w : Window) (b : Batch) (now : Millis) :
    Ordered (s.absorb w b now).1.samples := by
  rw [samples_absorb h]
  exact (ordered_append h b.samples).filter _

theorem mem_times_absorb {s : Series} (h : Ordered s.samples) {b : Batch}
    (forward : Ascending b.samples) (w : Window) (now : Millis) {t : Millis} :
    t ∈ (s.absorb w b now).1.times ↔
      w.floor now ≤ t ∧ (t ∈ s.times ∨ (t ∈ b.samples.map (·.time) ∧ ∀ u ∈ s.times, u < t)) := by
  have newer : s.newest?.all (· < t) = true ↔ ∀ u ∈ s.times, u < t := by
    rw [heads_newest h t, times, List.forall_mem_map]
  rw [← newer, times, samples_absorb h, newerThan_eq_filter forward]
  simp only [times, List.mem_map, List.mem_filter, List.mem_append, decide_eq_true_eq]
  constructor
  · rintro ⟨p, ⟨old | ⟨new, later⟩, inside⟩, rfl⟩
    · exact ⟨inside, .inl ⟨p, old, rfl⟩⟩
    · exact ⟨inside, .inr ⟨⟨p, new, rfl⟩, later⟩⟩
  · rintro ⟨inside, ⟨p, old, rfl⟩ | ⟨⟨p, new, rfl⟩, later⟩⟩
    · exact ⟨p, ⟨.inl old, inside⟩, rfl⟩
    · exact ⟨p, ⟨.inr ⟨new, later⟩, inside⟩, rfl⟩

theorem ascending_absorb {s : Series} (h : Ascending s.samples) (w : Window) (b : Batch)
    (now : Millis) : Ascending (s.absorb w b now).1.samples := by
  rw [samples_absorb h.ordered]
  exact (ascending_append h b.samples).filter _

/-! ### The cursor -/

theorem exists_laterOf (a : Option Millis) {b : Option Millis} {c : Millis} (h : b = some c) :
    ∃ later, laterOf a b = some later ∧ (a = some later ∨ b = some later) := by
  subst h
  cases a with
  | none => exact ⟨c, rfl, .inr rfl⟩
  | some a =>
      refine ⟨max a c, rfl, ?_⟩
      rcases Std.MaxEqOr.max_eq_or a c with eq | eq
      · exact .inl (congrArg some eq.symm)
      · exact .inr (congrArg some eq.symm)

theorem le_of_laterOf {a b : Option Millis} {later c : Millis} (h : laterOf a b = some later)
    (hc : a = some c ∨ b = some c) : c ≤ later := by
  cases a with
  | none =>
      obtain rfl : b = some c := by simpa using hc
      exact UInt64.le_of_eq (Option.some.inj h)
  | some a =>
      cases b with
      | none =>
          obtain rfl : a = c := by simpa using hc
          exact UInt64.le_of_eq (Option.some.inj h)
      | some b =>
          obtain rfl := Option.some.inj h
          obtain ⟨left, right⟩ :=
            (Std.LawfulOrderSup.max_le_iff a b (max a b)).mp (UInt64.le_refl _)
          rcases hc with hc | hc
          · exact Option.some.inj hc ▸ left
          · exact Option.some.inj hc ▸ right

/-- Taking in and trimming leave a cursor that is no later than what they were given. -/
theorem cursor_le_of_trimmed {s : Series} {batch : List Sample} {cutoff bound c : Millis}
    (cursor : ∀ c, s.cursor = some c → c ≤ bound) (old : ∀ p ∈ s.samples, p.time ≤ bound)
    (new : ∀ p ∈ batch, p.time ≤ bound)
    (h : ((s.append batch).1.trimBefore cutoff).1.cursor = some c) : c ≤ bound := by
  have fresh : ∀ p ∈ newerThan s.newest? batch, p.time ≤ bound :=
    fun p hp => new p ((newerThan_sublist _ _).subset hp)
  -- The cursor is the oldest sample left, else the last that came in, else what it was.
  rcases Option.or_eq_some_iff.mp h with oldest | ⟨-, grown⟩
  · obtain ⟨p, hp, rfl⟩ := Option.map_eq_some_iff.mp oldest
    have kept := (List.dropWhile_sublist _).subset (List.mem_of_head? hp)
    rcases List.mem_append.mp kept with hp | hp
    · exact old p hp
    · exact fresh p hp
  · rcases Option.or_eq_some_iff.mp grown with last | ⟨-, untouched⟩
    · obtain ⟨p, hp, rfl⟩ := Option.map_eq_some_iff.mp last
      exact fresh p (List.mem_of_getLast? hp)
    · exact cursor c untouched

/-- The cursor goes to the later of what it was and the newest of the batch, if nothing is newer. -/
theorem cursor_absorb {s : Series} {b : Batch} {resume : Millis}
    (later : laterOf s.cursor b.newest? = some resume) (old : ∀ p ∈ s.samples, p.time ≤ resume)
    (new : ∀ p ∈ b.samples, p.time ≤ resume) (w : Window) (now : Millis) :
    (s.absorb w b now).1.cursor = some resume := by
  simp only [absorb, later, raiseCursor, Option.some.injEq]
  split
  · rfl
  · rename_i c hc
    have le := cursor_le_of_trimmed (fun c hc => le_of_laterOf later (.inl hc)) old new hc
    exact if_pos le

theorem finite_absorb {s : Series} (finite : ∀ p ∈ s.samples, p.Finite) {b : Batch}
    (sound : b.fault? = none) (ordered : Ordered s.samples) (w : Window) (now : Millis) :
    ∀ p ∈ (s.absorb w b now).1.samples, p.Finite := by
  intro p hp
  rw [samples_absorb ordered] at hp
  rcases List.mem_append.mp (List.mem_filter.mp hp).1 with hp | hp
  · exact finite p hp
  · exact Batch.finite_samples sound p ((newerThan_sublist _ _).subset hp)

end MinerWatch.Series
