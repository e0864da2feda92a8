import MinerWatch.Proofs.Series.Columns
/-!
What a series takes in does not depend on how the samples are batched.

A sample is held against the newest instant at its turn, and each one that comes in moves that
instant. So a batch in two parts, the second held against what the first has left, comes in like the
whole (`append_append`). The loop over the columns, with its counters, is a batch in parts of one
sample each (`takeIn_ofSamples`).
-/

namespace MinerWatch

namespace Series

instance : Add Intake where
  add a b := ⟨a.accepted + b.accepted, a.rejected + b.rejected⟩

theorem offered_append (s : Series) (batch : List Sample) :
    (s.append batch).2.accepted + (s.append batch).2.rejected = batch.length :=
  Nat.add_sub_cancel' (newerThan_sublist s.newest? batch).length_le

theorem cursor_append (s : Series) (batch : List Sample) :
    (s.append batch).1.cursor =
      ((newerThan s.newest? batch).getLast?.map (·.time)).or s.cursor := rfl

/-- A batch in two parts comes in like its parts, the second one after the first. -/
theorem append_append (s : Series) (a b : List Sample) :
    s.append (a ++ b) =
      (((s.append a).1.append b).1, (s.append a).2 + ((s.append a).1.append b).2) := by
  -- At the seam the whole batch is held against the newest instant that its first part leaves.
  have parts : newerThan s.newest? (a ++ b) =
      newerThan s.newest? a ++ newerThan (s.append a).1.newest? b := by
    rw [newerThan_append, newest?_append]
  have cursor : (s.append (a ++ b)).1.cursor = ((s.append a).1.append b).1.cursor := by
    rw [cursor_append, cursor_append, cursor_append, parts, List.getLast?_append, Option.map_or,
      Option.or_assoc]
  have series : (s.append (a ++ b)).1 = ((s.append a).1.append b).1 :=
    congrArg₂ mk (s.samples_append_append a b).symm cursor
  have accepted : (s.append (a ++ b)).2.accepted =
      (s.append a).2.accepted + ((s.append a).1.append b).2.accepted := by
    have lengths := congrArg List.length parts
    rwa [List.length_append] at lengths
  have rejected : (s.append (a ++ b)).2.rejected =
      (s.append a).2.rejected + ((s.append a).1.append b).2.rejected := by
    have all := s.offered_append (a ++ b)
    have first := s.offered_append a
    have second := (s.append a).1.offered_append b
    rw [List.length_append] at all
    omega
  have intake : (s.append (a ++ b)).2 = (s.append a).2 + ((s.append a).1.append b).2 :=
    congrArg₂ Intake.mk accepted rejected
  exact Prod.ext series intake

theorem append_singleton (s : Series) (p : Sample) :
    s.append [p] =
      if s.newest?.all (· < p.time) then (⟨s.samples ++ [p], some p.time⟩, ⟨1, 0⟩)
      else (s, ⟨0, 1⟩) := by
  rw [append, newerThan]
  split
  · rfl
  · simp

end Series

/-! ### The loop over the columns -/

namespace Columns

/-- Columns in the middle of a batch, with what was counted so far and the instant that came in last. -/
structure Progress where
  columns : Columns
  intake : Series.Intake
  last : Option Millis

/-- Pushes a sample if it is newer than the last label at this moment, and passes it over if not. -/
def Progress.offer (w : Progress) (p : Sample) : Progress :=
  if w.columns.labels.getLast?.all (· < p.time) then
    ⟨w.columns.push p, ⟨w.intake.accepted + 1, w.intake.rejected⟩, some p.time⟩
  else
    { w with intake := ⟨w.intake.accepted, w.intake.rejected + 1⟩ }

/-- Offers the samples of a batch one after the other. -/
def takeIn (c : Columns) (batch : List Sample) : Progress :=
  batch.foldl Progress.offer ⟨c, ⟨0, 0⟩, none⟩

theorem takeIn_concat (c : Columns) (batch : List Sample) (p : Sample) :
    c.takeIn (batch ++ [p]) = (c.takeIn batch).offer p :=
  List.foldl_concat ..

/-- Counting changes nothing about what is pushed. -/
theorem columns_takeIn (c : Columns) (batch : List Sample) :
    (c.takeIn batch).columns = c.append batch := by
  induction batch using List.reverseRecOn with
  | nil => rfl
  | append_singleton ps p ih =>
      rw [takeIn_concat, Progress.offer, append, List.foldl_concat, ← append, ih]
      split <;> rfl

/-- A moment in the loop over the columns of a series, and what the series has taken in until then. -/
structure Progress.Shows (w : Progress) (s : Series) (taken : Series × Series.Intake) : Prop where
  columns : w.columns = ofSamples taken.1.samples
  intake : w.intake = taken.2
  cursor : w.last.or s.cursor = taken.1.cursor

theorem takeIn_ofSamples (s : Series) (batch : List Sample) :
    ((ofSamples s.samples).takeIn batch).Shows s (s.append batch) := by
  have columns (ps : List Sample) :
      ((ofSamples s.samples).takeIn ps).columns = ofSamples (s.append ps).1.samples := by
    rw [columns_takeIn, append_ofSamples]
  -- From the right end: the last turn of the loop is a batch of one sample after all the others.
  induction batch using List.reverseRecOn with
  | nil => exact ⟨columns [], rfl, rfl⟩
  | append_singleton ps p ih =>
      have newest : ((ofSamples s.samples).takeIn ps).columns.labels.getLast? =
          (s.append ps).1.newest? := by
        rw [columns]
        exact List.getLast?_map
      refine ⟨columns (ps ++ [p]), ?_, ?_⟩ <;>
        rw [takeIn_concat, Series.append_append, Series.append_singleton, Progress.offer, newest]
      · rw [ih.intake]
        split <;> rfl
      · split
        · rfl
        · exact ih.cursor

end Columns

namespace Series

/-- **Batching makes no difference.** A batch in two parts comes in like the whole, with the same
samples, the same cursor and the counts of the parts added up. What comes in are the samples that are
newer than the newest one of the series and than all before them in the batch, in order; the cursor
goes to the last of them, and stays where it is if there is none. The loop over the columns ends with
these samples in each column, and with the same counts and cursor. -/
theorem batching_makes_no_difference (s : Series) (a b : List Sample) :
    s.append (a ++ b) =
        (((s.append a).1.append b).1, (s.append a).2 + ((s.append a).1.append b).2) ∧
      (s.append a).1.samples = s.samples ++ leaders s.latest?.toList a ∧
      (s.append a).1.cursor = ((leaders s.latest?.toList a).getLast?.map (·.time)).or s.cursor ∧
      (s.append a).2.accepted = (leaders s.latest?.toList a).length ∧
      (s.append a).2.accepted + (s.append a).2.rejected = a.length ∧
      ((Columns.ofSamples s.samples).takeIn a).Shows s (s.append a) := by
  rw [leaders_eq_newerThan s.heads_latest]
  exact ⟨s.append_append a b, rfl, rfl, rfl, s.offered_append a, Columns.takeIn_ofSamples s a⟩

end Series
end MinerWatch
