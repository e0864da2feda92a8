import MinerWatch.Series.Merge
/-!
The order of a series, and what its operations make of it.

Samples of a series never go back in time. On such samples the two loops of the
series are plain filters: trimming keeps what is not older than the cutoff
(`samples_trimBefore`), and taking in a batch that is itself in order keeps what is
newer than the newest sample (`newerThan_eq_filter`). `newerThan_congr_from` is why the
newest sample may be forgotten: below a cutoff it does not matter which one it was. Of any
batch, what comes in are its `leaders`, a reference that compares with everything before.
-/

namespace MinerWatch

theorem Window.floor_mono (w : Window) {a b : Millis} (h : a ≤ b) : w.floor a ≤ w.floor b := by
  rw [UInt64.le_iff_toNat_le] at h ⊢
  simp only [Window.floor, Millis.toNat_subClamped]
  omega

namespace Series

/-- The samples never go back in time. Two of one instant may stand side by side. -/
def Ordered (ss : List Sample) : Prop :=
  ss.Pairwise (fun a b => a.time ≤ b.time)

/-- The samples go forward in time, so that no instant occurs twice. -/
def Ascending (ss : List Sample) : Prop :=
  ss.Pairwise (fun a b => a.time < b.time)

theorem Ascending.ordered {ss : List Sample} (h : Ascending ss) : Ordered ss :=
  h.imp UInt64.le_of_lt

theorem Ordered.filter {ss : List Sample} (h : Ordered ss) (p : Sample → Bool) :
    Ordered (ss.filter p) :=
  List.Pairwise.filter p h

theorem Ascending.filter {ss : List Sample} (h : Ascending ss) (p : Sample → Bool) :
    Ascending (ss.filter p) :=
  List.Pairwise.filter p h

/-- The newest instant of a list in order bounds all of it. -/
theorem Ordered.le_getLast {ss : List Sample} (h : Ordered ss) {p q : Sample}
    (last : ss.getLast? = some q) (mem : p ∈ ss) : p.time ≤ q.time := by
  obtain ⟨init, rfl⟩ := List.getLast?_eq_some_iff.mp last
  rcases List.mem_append.mp mem with mem | mem
  · exact (List.pairwise_append.mp h).2.2 p mem q (by simp)
  · obtain rfl := List.mem_singleton.mp mem
    exact UInt64.le_refl _

/-! ### Trimming -/

/-- In order, what is dropped from the front is all that is older than the cutoff. -/
theorem dropWhile_eq_filter {ss : List Sample} (h : Ordered ss) (cutoff : Millis) :
    ss.dropWhile (·.time < cutoff) = ss.filter (fun p => cutoff ≤ p.time) := by
  induction ss with
  | nil => rfl
  | cons p ps ih =>
      obtain ⟨first, rest⟩ := List.pairwise_cons.mp h
      -- The first sample that stays is the oldest of the rest, so all of them stay.
      by_cases old : p.time < cutoff
      · have out : ¬ cutoff ≤ p.time := UInt64.not_le.mpr old
        simp only [List.dropWhile_cons, old, decide_true, if_true, List.filter_cons, out,
          decide_false, Bool.false_eq_true, if_false]
        exact ih rest
      · have kept : ∀ q ∈ p :: ps, decide (cutoff ≤ q.time) = true := by
          intro q hq
          have hp := UInt64.not_lt.mp old
          rcases List.mem_cons.mp hq with rfl | hq
          · exact decide_eq_true hp
          · exact decide_eq_true (UInt64.le_trans hp (first q hq))
        rw [List.filter_eq_self.mpr kept, List.dropWhile_cons_of_neg (by simpa using old)]

theorem samples_trimBefore {s : Series} (h : Ordered s.samples) (cutoff : Millis) :
    (s.trimBefore cutoff).1.samples = s.samples.filter (fun p => cutoff ≤ p.time) :=
  dropWhile_eq_filter h cutoff

/-! ### Taking in -/

@[simp] theorem samples_append (s : Series) (batch : List Sample) :
    (s.append batch).1.samples = s.samples ++ newerThan s.newest? batch := rfl

@[simp] theorem newerThan_nil (m : Option Millis) : newerThan m [] = [] := rfl

theorem newerThan_sublist (m : Option Millis) (ps : List Sample) :
    (newerThan m ps).Sublist ps := by
  induction ps generalizing m with
  | nil => exact List.Sublist.refl _
  | cons p ps ih =>
      rw [newerThan]
      split
      · exact (ih _).cons_cons p
      · exact (ih m).cons p

theorem newer_of_mem_newerThan {m : Option Millis} {ps : List Sample} {q : Sample}
    (h : q ∈ newerThan m ps) : m.all (· < q.time) = true := by
  induction ps generalizing m with
  | nil => exact absurd h (by simp)
  | cons p ps ih =>
      rw [newerThan] at h
      split at h
      · rename_i new
        rcases List.mem_cons.mp h with rfl | h
        · exact new
        · have later : p.time < q.time := by simpa using ih h
          cases m with
          | none => rfl
          | some t =>
              have new : t < p.time := by simpa using new
              simpa using UInt64.lt_trans new later
      · exact ih h

theorem ascending_newerThan (m : Option Millis) (ps : List Sample) :
    Ascending (newerThan m ps) := by
  induction ps generalizing m with
  | nil => exact List.Pairwise.nil
  | cons p ps ih =>
      rw [newerThan]
      split
      · refine List.pairwise_cons.mpr ⟨fun q hq => ?_, ih _⟩
        simpa using newer_of_mem_newerThan hq
      · exact ih m

/-- The instant `m` stands for all of `seen` when something newer is looked for. -/
def Heads (m : Option Millis) (seen : List Sample) : Prop :=
  ∀ t : Millis, m.all (· < t) = true ↔ ∀ q ∈ seen, q.time < t

theorem heads_newest {s : Series} (h : Ordered s.samples) : Heads s.newest? s.samples := by
  intro t
  cases last : s.samples.getLast? with
  | none =>
      have nothing := List.getLast?_eq_none_iff.mp last
      simp [newest?, latest?, nothing]
  | some r =>
      simp only [newest?, latest?, last, Option.map_some, Option.all_some, decide_eq_true_eq]
      constructor
      · exact fun later q hq => UInt64.lt_of_le_of_lt (h.le_getLast last hq) later
      · exact fun all => all r (List.mem_of_getLast? last)

theorem lt_of_mem_newerThan {s : Series} (h : Ordered s.samples) {batch : List Sample} {p q : Sample}
    (hp : p ∈ s.samples) (hq : q ∈ newerThan s.newest? batch) : p.time < q.time :=
  (heads_newest h q.time).mp (newer_of_mem_newerThan hq) p hp

theorem ordered_append {s : Series} (h : Ordered s.samples) (batch : List Sample) :
    Ordered (s.append batch).1.samples := by
  refine List.pairwise_append.mpr ⟨h, (ascending_newerThan _ _).ordered, fun p hp q hq => ?_⟩
  exact UInt64.le_of_lt (lt_of_mem_newerThan h hp hq)

theorem ascending_append {s : Series} (h : Ascending s.samples) (batch : List Sample) :
    Ascending (s.append batch).1.samples :=
  List.pairwise_append.mpr ⟨h, ascending_newerThan _ _, fun _ hp _ hq =>
    lt_of_mem_newerThan h.ordered hp hq⟩

/-- A batch that goes forward in time by itself only loses what is not newer than the series. -/
theorem newerThan_eq_filter {m : Option Millis} {ps : List Sample} (h : Ascending ps) :
    newerThan m ps = ps.filter (fun p => m.all (· < p.time)) := by
  induction ps generalizing m with
  | nil => rfl
  | cons p ps ih =>
      obtain ⟨first, rest⟩ := List.pairwise_cons.mp h
      rw [newerThan, List.filter_cons]
      split
      · rename_i new
        rw [ih rest]
        congr 1
        refine List.filter_congr fun q hq => ?_
        have later := first q hq
        cases m with
        | none => simpa using later
        | some t =>
            have new : t < p.time := by simpa using new
            simp [later, UInt64.lt_trans new later]
      · exact ih rest

/-- A batch in two parts comes in like its parts one after the other. -/
theorem newerThan_append (m : Option Millis) (ps qs : List Sample) :
    newerThan m (ps ++ qs) =
      newerThan m ps ++ newerThan (((newerThan m ps).getLast?.map (·.time)).or m) qs := by
  induction ps generalizing m with
  | nil => rfl
  | cons p ps ih =>
      rw [List.cons_append, newerThan, newerThan]
      split
      · rw [ih, List.cons_append]
        congr 3
        cases newerThan (some p.time) ps with
        | nil => rfl
        | cons q rest => simp [List.getLast?_cons]
      · exact ih m

theorem newest?_append (s : Series) (batch : List Sample) :
    (s.append batch).1.newest? =
      ((newerThan s.newest? batch).getLast?.map (·.time)).or s.newest? := by
  simp only [newest?, latest?, samples_append, List.getLast?_append, Option.map_or]

theorem samples_append_append (s : Series) (ps qs : List Sample) :
    ((s.append ps).1.append qs).1.samples = (s.append (ps ++ qs)).1.samples := by
  simp only [samples_append, newest?_append, newerThan_append, List.append_assoc]

/-- Two newest instants between which a cutoff makes no difference. -/
def AgreeFrom (cutoff : Millis) (m n : Option Millis) : Prop :=
  m = n ∨ (m.all (· < cutoff) = true ∧ n.all (· < cutoff) = true)

/-- A sample before the cutoff leaves no trace beyond it, but that another old instant may be newest. -/
theorem exists_newerThan_of_old {cutoff : Millis} {m : Option Millis} {p : Sample}
    (old : p.time < cutoff) (hm : m.all (· < cutoff) = true) (ps : List Sample) :
    ∃ n : Option Millis, n.all (· < cutoff) = true ∧
      (newerThan m (p :: ps)).filter (fun q => cutoff ≤ q.time) =
        (newerThan n ps).filter (fun q => cutoff ≤ q.time) := by
  have out : decide (cutoff ≤ p.time) = false := decide_eq_false (UInt64.not_le.mpr old)
  rw [newerThan]
  split
  · exact ⟨some p.time, by simpa using old, by simp [out]⟩
  · exact ⟨m, hm, rfl⟩

/-- From a cutoff on, what comes in is the same after two newest instants that both lie before it. -/
theorem newerThan_congr_from {cutoff : Millis} {m n : Option Millis} (h : AgreeFrom cutoff m n)
    (ps : List Sample) :
    (newerThan m ps).filter (fun p => cutoff ≤ p.time) =
      (newerThan n ps).filter (fun p => cutoff ≤ p.time) := by
  induction ps generalizing m n with
  | nil => rfl
  | cons p ps ih =>
      rcases h with rfl | ⟨hm, hn⟩
      · rfl
      · by_cases old : p.time < cutoff
        · obtain ⟨m', hm', eqm⟩ := exists_newerThan_of_old old hm ps
          obtain ⟨n', hn', eqn⟩ := exists_newerThan_of_old old hn ps
          rw [eqm, eqn]
          exact ih (.inr ⟨hm', hn'⟩)
        · -- Both take the first sample from the cutoff on, and agree from there.
          have taken : ∀ k : Option Millis, k.all (· < cutoff) = true →
              k.all (· < p.time) = true := by
            intro k hk
            cases k with
            | none => rfl
            | some t =>
                have hk : t < cutoff := by simpa using hk
                simpa using UInt64.lt_of_lt_of_le hk (UInt64.not_lt.mp old)
          simp only [newerThan, taken m hm, taken n hn, if_true]

/-! ### What is newer than everything before it -/

/-- The samples that are newer than everything before them, `seen` and rejected ones included. -/
def leaders (seen : List Sample) : List Sample → List Sample
  | [] => []
  | p :: ps =>
    if ∀ q ∈ seen, q.time < p.time then p :: leaders (seen ++ [p]) ps else leaders (seen ++ [p]) ps

theorem leaders_eq_newerThan {m : Option Millis} {seen : List Sample} (h : Heads m seen)
    (ps : List Sample) : leaders seen ps = newerThan m ps := by
  induction ps generalizing m seen with
  | nil => rfl
  | cons p ps ih =>
      rw [leaders, newerThan]
      split
      · rename_i new
        rw [if_pos ((h p.time).mpr new)]
        congr 1
        refine ih fun t => ?_
        simp only [Option.all_some, decide_eq_true_eq, List.mem_append, List.mem_singleton]
        constructor
        · rintro later q (hq | rfl)
          · exact UInt64.lt_trans (new q hq) later
          · exact later
        · exact fun all => all p (.inr rfl)
      · rename_i notNew
        rw [if_neg fun new => notNew ((h p.time).mp new)]
        refine ih fun t => ?_
        simp only [h t, List.mem_append, List.mem_singleton]
        constructor
        · rintro all q (hq | rfl)
          · exact all q hq
          · -- Something before the rejected sample is at least as new as it is.
            obtain ⟨r, hr, le⟩ : ∃ r ∈ seen, ¬ r.time < q.time := by simpa using notNew
            exact UInt64.lt_of_le_of_lt (UInt64.not_lt.mp le) (all r hr)
        · exact fun all q hq => all q (.inl hq)

/-- The latest sample of a series stands for its newest instant, in whatever order the others are. -/
theorem heads_latest (s : Series) : Heads s.newest? s.latest?.toList := by
  intro t
  cases last : s.latest? with
  | none => simp [newest?, last]
  | some p => simp [newest?, last]

end Series
end MinerWatch
