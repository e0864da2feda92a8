import MinerWatch.Proofs.Series.Archive
/-!
A series kept column by column.

Labels and averages stand in four lists, and nothing but the operations holds them together: a new
sample is pushed onto each, what is evicted is counted on the labels alone, by bisection, and dropped
from each. Samples are read by their place, and a place that some column lacks is passed over
without notice. `append_ofSamples`, `evict_ofSamples` and `stored_eq` say that the columns always
are those of the list of samples of a `Series`, so that no place is ever passed over
(`shows_ofSamples`). Evicting needs labels in order for this.
-/

namespace MinerWatch

structure Columns where
  labels : List Millis := []
  tenMin : List Float := []
  hour : List Float := []
  day : List Float := []

namespace Columns

def ofSamples (ss : List Sample) : Columns where
  labels := ss.map (·.time)
  tenMin := ss.map (·.tenMin)
  hour := ss.map (·.hour)
  day := ss.map (·.day)

/-! ### Reading -/

/-- The sample at a place that every column has. -/
def sampleAt? (c : Columns) (i : Nat) : Option Sample :=
  match c.labels[i]?, c.tenMin[i]?, c.hour[i]?, c.day[i]? with
  | some time, some tenMin, some hour, some day => some ⟨time, tenMin, hour, day⟩
  | _, _, _, _ => none

/-- The samples at all places that have a label. One at a place that another column lacks is left out. -/
def points (c : Columns) : List Sample :=
  (List.range c.labels.length).filterMap c.sampleAt?

def latest? (c : Columns) : Option Sample :=
  if c.labels.length = 0 then none else c.sampleAt? (c.labels.length - 1)

def chart (c : Columns) : Chart where
  labels := c.labels
  tenMin := c.tenMin
  hour := c.hour
  day := c.day
  size := c.labels.length.toUInt64

/-- Whichever way the columns are read, they are the samples of a series, place by place. -/
structure Shows (c : Columns) (s : Series) : Prop where
  labels : c.labels.length = s.size
  tenMin : c.tenMin.length = s.size
  hour : c.hour.length = s.size
  day : c.day.length = s.size
  points : c.points = s.samples
  chart : c.chart = s.chart
  latest : c.latest? = s.latest?

@[simp] theorem sampleAt?_ofSamples (ss : List Sample) (i : Nat) :
    (ofSamples ss).sampleAt? i = ss[i]? := by
  simp only [sampleAt?, ofSamples, List.getElem?_map]
  cases ss[i]? <;> rfl

theorem filterMap_range_getElem? {α : Type} (xs : List α) :
    (List.range xs.length).filterMap (xs[·]?) = xs := by
  induction xs with
  | nil => rfl
  | cons x xs ih =>
      rw [List.length_cons, List.range_succ_eq_map, List.filterMap_cons, List.filterMap_map]
      exact congrArg (x :: ·) ih

theorem points_ofSamples (ss : List Sample) : (ofSamples ss).points = ss := by
  simp only [points, sampleAt?_ofSamples]
  simpa [ofSamples] using filterMap_range_getElem? ss

theorem latest?_ofSamples (ss : List Sample) : (ofSamples ss).latest? = ss.getLast? := by
  have size : (ofSamples ss).labels.length = ss.length := by simp [ofSamples]
  rw [latest?, size, sampleAt?_ofSamples, List.getLast?_eq_getElem?]
  cases ss with
  | nil => rfl
  | cons p ps => simp

theorem chart_ofSamples (ss : List Sample) : (ofSamples ss).chart = .ofSamples ss := by
  simp [chart, ofSamples, Chart.ofSamples]

theorem shows_ofSamples (s : Series) : (ofSamples s.samples).Shows s where
  labels := by simp [ofSamples, Series.size]
  tenMin := by simp [ofSamples, Series.size]
  hour := by simp [ofSamples, Series.size]
  day := by simp [ofSamples, Series.size]
  points := points_ofSamples s.samples
  chart := chart_ofSamples s.samples
  latest := latest?_ofSamples s.samples

/-! ### Appending -/

def push (c : Columns) (p : Sample) : Columns where
  labels := c.labels ++ [p.time]
  tenMin := c.tenMin ++ [p.tenMin]
  hour := c.hour ++ [p.hour]
  day := c.day ++ [p.day]

/-- Pushes the samples of a batch one after the other, but for those that are not newer than the
last label at that moment. -/
def append (c : Columns) (batch : List Sample) : Columns :=
  batch.foldl (fun c p => if c.labels.getLast?.all (· < p.time) then c.push p else c) c

theorem push_ofSamples (ss : List Sample) (p : Sample) :
    (ofSamples ss).push p = ofSamples (ss ++ [p]) := by
  simp [push, ofSamples]

theorem append_ofSamples (s : Series) (batch : List Sample) :
    (ofSamples s.samples).append batch = ofSamples (s.append batch).1.samples := by
  induction batch generalizing s with
  | nil => simp [append]
  | cons p ps ih =>
      have newest : (ofSamples s.samples).labels.getLast? = s.newest? := List.getLast?_map
      rw [append, List.foldl_cons, newest, Series.samples_append, Series.newerThan]
      split
      · -- The sample is pushed, and from here on it is the newest.
        rename_i new
        have pushed := ih ⟨s.samples ++ [p], s.cursor⟩
        have last : Series.newest? ⟨s.samples ++ [p], s.cursor⟩ = some p.time := by
          simp [Series.newest?, Series.latest?]
        rw [Series.samples_append, last, List.append_assoc] at pushed
        rw [push_ofSamples]
        exact pushed
      · exact ih s

/-! ### Evicting -/

/-- How many labels lie before a cutoff, by bisection of the places from `lo` to `hi`. -/
def bisect (labels : List Millis) (cutoff : Millis) (lo hi : Nat) : Nat :=
  if lo < hi then
    if labels[(lo + hi) / 2]?.any (· < cutoff) then bisect labels cutoff ((lo + hi) / 2 + 1) hi
    else bisect labels cutoff lo ((lo + hi) / 2)
  else lo
termination_by hi - lo

def drop (c : Columns) (n : Nat) : Columns where
  labels := c.labels.drop n
  tenMin := c.tenMin.drop n
  hour := c.hour.drop n
  day := c.day.drop n

/-- Drops from every column as many places as there are labels before the cutoff. -/
def evict (c : Columns) (cutoff : Millis) : Columns :=
  c.drop (bisect c.labels cutoff 0 c.labels.length)

/-- In order, the labels before a cutoff are those at the first places. -/
theorem any_lt_iff {labels : List Millis} (sorted : labels.Pairwise (· ≤ ·)) (cutoff : Millis)
    (i : Nat) :
    labels[i]?.any (· < cutoff) = true ↔ i < (labels.takeWhile (· < cutoff)).length := by
  induction labels generalizing i with
  | nil => simp
  | cons a labels ih =>
      obtain ⟨first, rest⟩ := List.pairwise_cons.mp sorted
      by_cases old : a < cutoff
      · rw [List.takeWhile_cons_of_pos (by simpa using old), List.length_cons]
        cases i with
        | zero => simpa using old
        | succ i => simpa using ih rest i
      · have kept : ∀ b ∈ a :: labels, ¬ b < cutoff := by
          intro b hb
          rcases List.mem_cons.mp hb with rfl | hb
          · exact old
          · exact UInt64.not_lt.mpr (UInt64.le_trans (UInt64.not_lt.mp old) (first b hb))
        rw [List.takeWhile_cons_of_neg (by simpa using old)]
        simp only [Option.any_eq_true, decide_eq_true_eq, List.length_nil, Nat.not_lt_zero, iff_false]
        rintro ⟨b, at_, before⟩
        exact kept b (List.mem_of_getElem? at_) before

/-- Bisection finds the end of the labels before the cutoff, wherever it starts around it. -/
theorem bisect_eq {labels : List Millis} (sorted : labels.Pairwise (· ≤ ·)) (cutoff : Millis)
    {lo hi : Nat} (above : lo ≤ (labels.takeWhile (· < cutoff)).length)
    (below : (labels.takeWhile (· < cutoff)).length ≤ hi) :
    bisect labels cutoff lo hi = (labels.takeWhile (· < cutoff)).length := by
  fun_induction bisect labels cutoff lo hi with
  | case1 lo hi _ before ih =>
      exact ih ((any_lt_iff sorted cutoff _).mp before) below
  | case2 lo hi _ after ih =>
      exact ih above (Nat.not_lt.mp (mt (any_lt_iff sorted cutoff _).mpr after))
  | case3 lo hi done => omega

theorem drop_length_takeWhile {α : Type} (p : α → Bool) (xs : List α) :
    xs.drop (xs.takeWhile p).length = xs.dropWhile p := by
  have parts : (xs.takeWhile p ++ xs.dropWhile p).drop (xs.takeWhile p).length = xs.dropWhile p :=
    List.drop_left
  rwa [List.takeWhile_append_dropWhile] at parts

theorem drop_ofSamples (ss : List Sample) (n : Nat) :
    (ofSamples ss).drop n = ofSamples (ss.drop n) := by
  simp [drop, ofSamples]

/-- In order, bisection counts the samples before the cutoff. -/
theorem bisect_ofSamples {ss : List Sample} (h : Series.Ordered ss) (cutoff : Millis) :
    bisect (ofSamples ss).labels cutoff 0 (ofSamples ss).labels.length =
      (ss.takeWhile (·.time < cutoff)).length := by
  have sorted : (ofSamples ss).labels.Pairwise (· ≤ ·) := List.pairwise_map.mpr h
  have front : ((ofSamples ss).labels.takeWhile (· < cutoff)).length =
      (ss.takeWhile (·.time < cutoff)).length := by
    simp only [ofSamples, List.takeWhile_map, List.length_map, Function.comp_def]
  rw [← front]
  exact bisect_eq sorted cutoff (Nat.zero_le _) (List.takeWhile_sublist _).length_le

theorem evict_ofSamples {s : Series} (h : Series.Ordered s.samples) (cutoff : Millis) :
    (ofSamples s.samples).evict cutoff = ofSamples (s.trimBefore cutoff).1.samples := by
  rw [evict, bisect_ofSamples h, drop_ofSamples, drop_length_takeWhile, Series.trimBefore]

/-! ### Loading -/

/-- The columns of a chart entry. They are refused together when they differ in length or when the
labels go back. -/
def stored (entry : Option String) : Columns :=
  match entry.bind StoredChart.record.codec.read with
  | none => {}
  | some chart =>
    let n := chart.labels.length
    if chart.tenMin.length ≠ n ∨ chart.hour.length ≠ n ∨ chart.day.length ≠ n then {}
    else
      match Series.unordered? 0 chart.labels with
      | some _ => {}
      | none => ⟨chart.labels, chart.tenMin, chart.hour, chart.day⟩

/-- Zipping columns of one length loses nothing. -/
theorem ofSamples_zip {labels : List Millis} {tenMin hour day : List Float}
    (tens : tenMin.length = labels.length) (hours : hour.length = labels.length)
    (days : day.length = labels.length) :
    ofSamples ((labels.zip (tenMin.zip (hour.zip day))).map fun (t, a, b, c) => ⟨t, a, b, c⟩) =
      ⟨labels, tenMin, hour, day⟩ := by
  have pairs : (hour.zip day).length = labels.length := by simp [hours, days]
  have triples : (tenMin.zip (hour.zip day)).length = labels.length := by simp [tens, pairs]
  have rows : (labels.zip (tenMin.zip (hour.zip day))).map Prod.snd = tenMin.zip (hour.zip day) :=
    List.map_snd_zip (Nat.le_of_eq triples)
  have rest : (tenMin.zip (hour.zip day)).map Prod.snd = hour.zip day :=
    List.map_snd_zip (Nat.le_of_eq (pairs.trans tens.symm))
  simp only [ofSamples, List.map_map, Function.comp_def, mk.injEq]
  refine ⟨List.map_fst_zip (Nat.le_of_eq triples.symm), ?_, ?_, ?_⟩
  · have column := List.map_fst_zip (Nat.le_of_eq (tens.trans pairs.symm))
    rw [← rows, List.map_map] at column
    exact column
  · have column := List.map_fst_zip (Nat.le_of_eq (hours.trans days.symm))
    rw [← rest, ← rows, List.map_map, List.map_map] at column
    exact column
  · have column := List.map_snd_zip (Nat.le_of_eq (days.trans hours.symm))
    rw [← rest, ← rows, List.map_map, List.map_map] at column
    exact column

/-- The columns of an entry are those of the samples that are loaded from it. -/
theorem stored_eq (entry : Option String) : stored entry = ofSamples (Archive.storedSamples entry) := by
  unfold stored Archive.storedSamples
  cases entry.bind StoredChart.record.codec.read with
  | none => rfl
  | some chart =>
      simp only [Series.ofColumns]
      split_ifs with uneven
      · rfl
      · obtain ⟨tens, hours, days⟩ : chart.tenMin.length = chart.labels.length ∧
            chart.hour.length = chart.labels.length ∧ chart.day.length = chart.labels.length := by
          simpa only [not_or, Decidable.not_not] using uneven
        cases Series.unordered? 0 chart.labels with
        | some fault => rfl
        | none => exact (ofSamples_zip tens hours days).symm

end Columns
end MinerWatch
