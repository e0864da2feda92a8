import MinerWatch.Proofs.Batch
import MinerWatch.Proofs.Decimal.FreeText
import MinerWatch.Proofs.Json.Codec
import MinerWatch.Proofs.Series.Merge
import MinerWatch.Proofs.Text.Trim
import MinerWatch.Series.Archive
/-!
What was saved is loaded again.

The cursor comes back exactly, and so do the instants of the samples. The averages
may come back as other floats, since reading rounds in its own way, but as finite ones; so a
series that was loaded can be saved and loaded once more. `load_holding` is the theorem.
-/

namespace MinerWatch

/-! ### What a host grants -/

namespace Guard

def Reads (g : Guard) (keys : ArchiveKeys) : Prop :=
  g.unreadable keys.chart = false ∧ g.unreadable keys.cursor = false

def Writes (g : Guard) (keys : ArchiveKeys) : Prop :=
  g.refusesWrite keys.chart = none ∧ g.refusesWrite keys.cursor = none

def Removes (g : Guard) (keys : ArchiveKeys) : Prop :=
  g.refusesRemoval keys.chart = none ∧ g.refusesRemoval keys.cursor = none

end Guard

/-- The host grants everything. -/
structure Obliging (keys : ArchiveKeys) (g : Guard) : Prop where
  reads : g.Reads keys
  writes : g.Writes keys
  removes : g.Removes keys

/-! ### Entries -/

namespace Store

/-- The host lets the entry be read and written. -/
def Serves (s : Store) (key : String) : Prop :=
  s.guard.unreadable key = false ∧ s.guard.refusesWrite key = none

theorem read?_of_readable {s : Store} {key : String} (h : s.guard.unreadable key = false) :
    s.read? key = s.entry? key := by
  rw [read?, h]
  rfl

@[simp] theorem lookup_putEntry_self (key value : String) (es : List (String × String)) :
    (putEntry key value es).lookup key = some value := by
  simp [putEntry]

theorem lookup_dropEntry_self (key : String) (es : List (String × String)) :
    (dropEntry key es).lookup key = none := by
  refine List.lookup_eq_none_iff.mpr fun e he => ?_
  have other : e.1 ≠ key := by simpa using (List.mem_filter.mp he).2
  simpa using other.symm

theorem lookup_dropEntry_of_ne {key other : String} (ne : other ≠ key)
    (es : List (String × String)) : (dropEntry key es).lookup other = es.lookup other := by
  induction es with
  | nil => rfl
  | cons e es ih =>
      obtain ⟨k, v⟩ := e
      rw [dropEntry] at ih ⊢
      by_cases same : k = key
      · subst same
        have skip : (other == k) = false := by simpa using ne
        rw [List.filter_cons_of_neg (by simp), ih, List.lookup_cons, skip]
      · rw [List.filter_cons_of_pos (by simpa using same), List.lookup_cons, List.lookup_cons, ih]

theorem lookup_putEntry_of_ne {key other : String} (ne : other ≠ key) (value : String)
    (es : List (String × String)) : (putEntry key value es).lookup other = es.lookup other := by
  have skip : (other == key) = false := by simpa using ne
  have rest := lookup_dropEntry_of_ne ne es
  rw [dropEntry] at rest
  simp only [putEntry, List.lookup_cons, skip, rest]

theorem remove_of_granted {s : Store} {key : String} (h : s.guard.refusesRemoval key = none) :
    (s.remove key).value = { s with entries := dropEntry key s.entries } := by
  simp only [remove, h, Logged.value_pure]

end Store

/-! ### The cursor -/

namespace Archive

open Decimal Json

/-- **A cursor is read back as it was written.** -/
theorem readCursor?_writeCursor (c : Millis) : readCursor? (writeCursor c) = some c := by
  have graphic : ∀ d : Digit, Text.isBlank d.char = false := by decide
  have trimmed : Text.trim (writeCursor c).toList = (writeCursor c).toList := by
    apply Text.trim_of_graphic
    intro ch mem
    rw [writeCursor, toList_natText] at mem
    obtain ⟨d, -, rfl⟩ := List.mem_map.mp mem
    exact graphic d
  have word : readWord? (writeCursor c).toList = some c := readWord?_natText c
  simp only [readCursor?, trimmed, word]

/-! ### The samples -/

end Archive

namespace Series

theorem unordered?_eq_none_iff {index : Nat} {labels : List Millis} :
    unordered? index labels = none ↔ labels.Pairwise (· ≤ ·) := by
  induction labels generalizing index with
  | nil => simp [unordered?]
  | cons a labels ih =>
      cases labels with
      | nil => simp [unordered?]
      | cons b rest =>
          rw [unordered?, List.pairwise_cons, ← ih]
          constructor
          · intro h
            split at h
            · exact absurd h (by simp)
            · -- Only neighbours are compared, so the rest has to be in order for more.
              rename_i notLess
              have le := UInt64.not_lt.mp notLess
              have after := (List.pairwise_cons.mp (ih.mp h)).1
              refine ⟨fun c hc => ?_, h⟩
              rcases List.mem_cons.mp hc with rfl | hc
              · exact le
              · exact UInt64.le_trans le (after c hc)
          · rintro ⟨first, tail⟩
            rw [if_neg (UInt64.not_lt.mpr (first b List.mem_cons_self))]
            exact tail

/-- The series shows the given instants, has the given cursor, and can be saved and loaded. -/
structure Shows (s : Series) (times : List Millis) (cursor : Option Millis) : Prop where
  times : s.times = times
  cursor : s.cursor = cursor
  finite : ∀ p ∈ s.samples, p.Finite

/-- The cursor has no part in whether columns make a series. -/
theorem ofColumns_cursor (labels : List Millis) (tenMin hour day : List Float)
    (cursor : Option Millis) :
    ofColumns labels tenMin hour day cursor =
      (ofColumns labels tenMin hour day none).map fun s => ⟨s.samples, cursor⟩ := by
  simp only [ofColumns]
  split
  · rfl
  · split <;> rfl

/-- The columns of samples in order make a series of just these samples. -/
theorem ofColumns_map {ss : List Sample} (ordered : Ordered ss) (cursor : Option Millis) :
    ofColumns (ss.map (·.time)) (ss.map (·.tenMin)) (ss.map (·.hour)) (ss.map (·.day)) cursor =
      .ok ⟨ss, cursor⟩ := by
  have sorted : unordered? 0 (ss.map (·.time)) = none :=
    unordered?_eq_none_iff.mpr (List.pairwise_map.mpr ordered)
  simp only [ofColumns, List.length_map, ne_eq, not_true_eq_false, or_self, if_false, sorted,
    List.zip_map', List.map_map, Function.comp_def, List.map_id']

theorem ordered_of_ofColumns {labels : List Millis} {tenMin hour day : List Float}
    {cursor : Option Millis} {s : Series} (h : ofColumns labels tenMin hour day cursor = .ok s) :
    Ordered s.samples := by
  simp only [ofColumns] at h
  split_ifs at h with uneven
  obtain ⟨ten, one, whole⟩ : tenMin.length = labels.length ∧ hour.length = labels.length ∧
      day.length = labels.length := by
    simpa only [not_or, Decidable.not_not] using uneven
  split at h
  · exact absurd h (by simp)
  · rename_i sorted
    obtain rfl := Except.ok.inj h
    have times : ((labels.zip (tenMin.zip (hour.zip day))).map Prod.fst).Pairwise (· ≤ ·) := by
      rw [List.map_fst_zip (by simp [ten, one, whole])]
      exact unordered?_eq_none_iff.mp sorted
    exact List.pairwise_map.mpr (List.pairwise_map.mp times)

theorem finite_of_ofColumns {labels : List Millis} {tenMin hour day : List Float}
    {cursor : Option Millis} {s : Series} (h : ofColumns labels tenMin hour day cursor = .ok s)
    (finite : ∀ x, x ∈ tenMin ∨ x ∈ hour ∨ x ∈ day → x.isFinite = true) :
    ∀ p ∈ s.samples, p.Finite := by
  simp only [ofColumns] at h
  split_ifs at h
  split at h
  · exact absurd h (by simp)
  · obtain rfl := Except.ok.inj h
    intro p hp
    obtain ⟨⟨t, a, b, c⟩, row, rfl⟩ := List.mem_map.mp hp
    have values := List.of_mem_zip (List.of_mem_zip row).2
    have pair := List.of_mem_zip values.2
    exact ⟨finite a (.inl values.1), finite b (.inr (.inl pair.1)), finite c (.inr (.inr pair.2))⟩

end Series

/-! ### Samples that were written and read -/

/-- A sample that was saved comes back as another: at the same instant, with the averages that
reading makes of the written ones. -/
structure Sample.ReloadsAs (p q : Sample) : Prop where
  time : q.time = p.time
  tenMin : Json.Returns .float p.tenMin q.tenMin
  hour : Json.Returns .float p.hour q.hour
  day : Json.Returns .float p.day q.day

theorem Sample.Finite.exists_reloadsAs {p : Sample} (h : p.Finite) :
    ∃ q : Sample, p.ReloadsAs q ∧ q.Finite := by
  obtain ⟨tens, ten, tenFinite⟩ := Json.Codec.returns_float h.1
  obtain ⟨ones, one, oneFinite⟩ := Json.Codec.returns_float h.2.1
  obtain ⟨days, day, dayFinite⟩ := Json.Codec.returns_float h.2.2
  exact ⟨⟨p.time, tens, ones, days⟩, ⟨rfl, ten, one, day⟩, tenFinite, oneFinite, dayFinite⟩

/-- Whatever average of the first sample is written with few digits is the same in the second. -/
structure Sample.KeepsShort (p q : Sample) : Prop where
  tenMin : (Decimal.dataStyle.numeral p.tenMin).Short → q.tenMin = p.tenMin
  hour : (Decimal.dataStyle.numeral p.hour).Short → q.hour = p.hour
  day : (Decimal.dataStyle.numeral p.day).Short → q.day = p.day

theorem Sample.KeepsShort.refl (p : Sample) : p.KeepsShort p :=
  ⟨fun _ => rfl, fun _ => rfl, fun _ => rfl⟩

theorem Sample.ReloadsAs.keepsShort {p q : Sample} (h : p.ReloadsAs q) : p.KeepsShort q where
  tenMin short := Json.Codec.eq_of_returns_float short h.tenMin
  hour short := Json.Codec.eq_of_returns_float short h.hour
  day short := Json.Codec.eq_of_returns_float short h.day

theorem exists_forall₂_reloadsAs {ps : List Sample} (h : ∀ p ∈ ps, p.Finite) :
    ∃ qs, List.Forall₂ Sample.ReloadsAs ps qs ∧ ∀ q ∈ qs, q.Finite := by
  induction ps with
  | nil => exact ⟨[], .nil, by simp⟩
  | cons p ps ih =>
      obtain ⟨first, rest⟩ := List.forall_mem_cons.mp h
      obtain ⟨q, reloads, finite⟩ := first.exists_reloadsAs
      obtain ⟨qs, all, allFinite⟩ := ih rest
      exact ⟨q :: qs, .cons reloads all, List.forall_mem_cons.mpr ⟨finite, allFinite⟩⟩

theorem times_of_reloadsAs {ps qs : List Sample} (h : List.Forall₂ Sample.ReloadsAs ps qs) :
    qs.map (·.time) = ps.map (·.time) := by
  induction h with
  | nil => rfl
  | cons first _ ih => rw [List.map_cons, List.map_cons, first.time, ih]

/-- How samples come back from a store: as they are if they were loaded and never saved, and else as
reading makes of what was written. -/
def ComesBackAs (ps qs : List Sample) : Prop :=
  qs = ps ∨ List.Forall₂ Sample.ReloadsAs ps qs

theorem ComesBackAs.times {ps qs : List Sample} (h : ComesBackAs ps qs) :
    qs.map (·.time) = ps.map (·.time) := by
  rcases h with rfl | reloads
  · rfl
  · exact times_of_reloadsAs reloads

theorem ComesBackAs.keepsShort {ps qs : List Sample} (h : ComesBackAs ps qs) :
    List.Forall₂ Sample.KeepsShort ps qs := by
  rcases h with rfl | reloads
  · exact List.forall₂_same.mpr fun p _ => .refl p
  · exact reloads.imp fun _ _ => Sample.ReloadsAs.keepsShort

theorem ordered_of_reloadsAs {ps qs : List Sample} (h : List.Forall₂ Sample.ReloadsAs ps qs)
    (ordered : Series.Ordered ps) : Series.Ordered qs := by
  apply List.pairwise_map.mp
  rw [times_of_reloadsAs h]
  exact List.pairwise_map.mpr ordered

namespace Archive

open Decimal Json

/-! ### What is loaded -/

/-- The samples that a chart entry denotes. An absent or malformed entry denotes none. -/
def storedSamples (entry : Option String) : List Sample :=
  match entry.bind StoredChart.record.codec.read with
  | none => []
  | some chart =>
    match Series.ofColumns chart.labels chart.tenMin chart.hour chart.day none with
    | .ok series => series.samples
    | .error _ => []

/-- The cursor that a cursor entry denotes. -/
def storedCursor (entry : Option String) : Option Millis :=
  entry.bind readCursor?

/-- The two entries are loaded independently of each other. -/
theorem value_load (keys : ArchiveKeys) (store : Store) :
    (load keys store).value =
      ⟨storedSamples (store.read? keys.chart), storedCursor (store.read? keys.cursor)⟩ := by
  have cursor : (loadCursor keys store).value = storedCursor (store.read? keys.cursor) := by
    unfold loadCursor
    cases store.read? keys.cursor with
    | none => rfl
    | some raw =>
        simp only [storedCursor, Option.bind_some]
        cases readCursor? raw <;> rfl
  simp only [load, Logged.value_bind, cursor]
  cases store.read? keys.chart with
  | none => rfl
  | some raw =>
      simp only [Logged.value_bind, readChart, storedSamples, Option.bind_some]
      cases StoredChart.record.codec.read raw with
      | none => rfl
      | some chart =>
          simp only [Logged.value_pure]
          rw [Series.ofColumns_cursor]
          cases Series.ofColumns chart.labels chart.tenMin chart.hour chart.day none <;> rfl

theorem storedSamples_cases {entry : Option String} {P : List Sample → Prop} (nil : P [])
    (ok : ∀ raw chart s, entry = some raw → StoredChart.record.codec.read raw = some chart →
      Series.ofColumns chart.labels chart.tenMin chart.hour chart.day none = .ok s → P s.samples) :
    P (storedSamples entry) := by
  unfold storedSamples
  split
  · exact nil
  · rename_i chart read
    obtain ⟨raw, rfl, read⟩ := Option.bind_eq_some_iff.mp read
    split
    · rename_i s built
      exact ok raw chart s rfl read built
    · exact nil

theorem ordered_storedSamples (entry : Option String) : Series.Ordered (storedSamples entry) :=
  storedSamples_cases List.Pairwise.nil fun _ _ _ _ _ built => Series.ordered_of_ofColumns built

/-- A stored chart has no average that is not finite. -/
theorem finite_of_read {raw : String} {chart : StoredChart}
    (h : StoredChart.record.codec.read raw = some chart) :
    ∀ x, x ∈ chart.tenMin ∨ x ∈ chart.hour ∨ x ∈ chart.day → x.isFinite = true := by
  obtain ⟨value, -, decoded⟩ := Option.bind_eq_some_iff.mp h
  refine Record.decode_induction
    (P := fun c => ∀ x, x ∈ c.tenMin ∨ x ∈ c.hour ∨ x ∈ c.day → x.isFinite = true) ?_ ?_ decoded
  · intro f hf v before after finite taken
    simp only [StoredChart.record, List.mem_cons, List.not_mem_nil, or_false] at hf
    rcases hf with rfl | rfl | rfl | rfl
    · obtain ⟨labels, -, rfl⟩ := Field.exists_of_optional taken
      exact finite
    · obtain ⟨column, read, rfl⟩ := Field.exists_of_optional taken
      rintro x (hx | rest)
      · exact Codec.finite_of_decode_floats read x hx
      · exact finite x (.inr rest)
    · obtain ⟨column, read, rfl⟩ := Field.exists_of_optional taken
      rintro x (hx | hx | hx)
      · exact finite x (.inl hx)
      · exact Codec.finite_of_decode_floats read x hx
      · exact finite x (.inr (.inr hx))
    · obtain ⟨column, read, rfl⟩ := Field.exists_of_optional taken
      rintro x (hx | hx | hx)
      · exact finite x (.inl hx)
      · exact finite x (.inr (.inl hx))
      · exact Codec.finite_of_decode_floats read x hx
  · rintro x (hx | hx | hx) <;> exact absurd hx (by simp [StoredChart.record])

theorem finite_storedSamples (entry : Option String) : ∀ p ∈ storedSamples entry, p.Finite :=
  storedSamples_cases (P := fun ss => ∀ p ∈ ss, p.Finite) (by simp) fun _ _ _ _ read built =>
    Series.finite_of_ofColumns built (finite_of_read read)

/-- The columns of samples that were written are those of the samples that come back. -/
theorem returns_ofSeries {s : Series} {qs : List Sample}
    (h : List.Forall₂ Sample.ReloadsAs s.samples qs) :
    Returns StoredChart.record.codec (.ofSeries s)
      ⟨qs.map (·.time), qs.map (·.tenMin), qs.map (·.hour), qs.map (·.day)⟩ := by
  have column : ∀ f : Sample → Float, (∀ p q : Sample, p.ReloadsAs q → Returns .float (f p) (f q)) →
      Returns (.list .float) (s.samples.map f) (qs.map f) := by
    intro f returns
    apply Codec.returns_list
    rw [List.forall₂_map_left_iff, List.forall₂_map_right_iff]
    exact h.imp returns
  have labels : Returns (.list .word64) s.times (qs.map (·.time)) := by
    rw [times_of_reloadsAs h]
    exact Codec.returns_words s.times
  have tens := column (·.tenMin) fun _ _ reloads => reloads.tenMin
  have ones := column (·.hour) fun _ _ reloads => reloads.hour
  have days := column (·.day) fun _ _ reloads => reloads.day
  exact Record.returns_of_rereads (by decide)
    (.optional labels (.optional tens (.optional ones (.optional days .nil))))

/-- Samples that were written are read as what their averages return as. -/
theorem storedSamples_writeChart {s : Series} {qs : List Sample} (ordered : Series.Ordered s.samples)
    (h : List.Forall₂ Sample.ReloadsAs s.samples qs) : storedSamples (some (writeChart s)) = qs := by
  have read : StoredChart.record.codec.read (writeChart s) = _ := (returns_ofSeries h).read_write
  simp only [storedSamples, Option.bind_some, read,
    Series.ofColumns_map (ordered_of_reloadsAs h ordered)]

/-- The samples of a series that was loaded or merged: they can be saved and loaded again. -/
structure Storable (ss : List Sample) : Prop where
  ordered : Series.Ordered ss
  finite : ∀ p ∈ ss, p.Finite

theorem storable_nil : Storable [] :=
  ⟨List.Pairwise.nil, by simp⟩

theorem Storable.absorb {s : Series} (h : Storable s.samples) {b : Batch}
    (sound : b.fault? = none) (w : Window) (now : Millis) :
    Storable (s.absorb w b now).1.samples :=
  ⟨Series.ordered_absorb h.ordered w b now, Series.finite_absorb h.finite sound h.ordered w now⟩

theorem storable_load (keys : ArchiveKeys) (store : Store) :
    Storable (load keys store).value.samples := by
  rw [value_load]
  exact ⟨ordered_storedSamples _, finite_storedSamples _⟩

/-- The store holds the cursor of one series and the samples of another. -/
structure Holds (keys : ArchiveKeys) (store : Store) (position points : Series) : Prop where
  cursor : (storedCursor <| store.entry? keys.cursor) = position.cursor
  chart : ComesBackAs points.samples (storedSamples <| store.entry? keys.chart)

/-! ### What is saved -/

variable {keys : ArchiveKeys} {store : Store} {s position points : Series} {cursor : Millis}

/-- The store with the samples of a series in it, whatever was there before. -/
def holdingChart (keys : ArchiveKeys) (s : Series) (store : Store) : Store :=
  { store with entries := Store.putEntry keys.chart (writeChart s) store.entries }

/-- The store with a series in it, whatever was there before. -/
def holding (keys : ArchiveKeys) (s : Series) (cursor : Millis) (store : Store) : Store :=
  { store with
    entries := Store.putEntry keys.cursor (writeCursor cursor)
      (Store.putEntry keys.chart (writeChart s) store.entries) }

theorem serves_holding {key : String} (h : store.Serves key) :
    (holding keys s cursor store).Serves key := h

/-- All that can become of a save: the samples are refused, or only the cursor, or neither. -/
theorem save_cases (keys : ArchiveKeys) (known : s.cursor = some cursor) (store : Store) :
    (store.guard.refusesWrite keys.chart ≠ none ∧ (save keys s store).value.1 = store) ∨
    (store.guard.refusesWrite keys.cursor ≠ none ∧
      (save keys s store).value.1 = holdingChart keys s store) ∨
    (save keys s store).value = (holding keys s cursor store, .ok ()) := by
  cases chart : store.guard.refusesWrite keys.chart with
  | some reason =>
      left
      exact ⟨by simp, by simp only [save, Store.write, chart, Logged.value_pure]⟩
  | none =>
      right
      cases position : store.guard.refusesWrite keys.cursor with
      | some reason =>
          left
          refine ⟨by simp, ?_⟩
          simp only [save, Store.write, chart, known, position, Logged.value_pure]
          rfl
      | none =>
          right
          simp only [save, Store.write, chart, known, position, Logged.value_pure]
          rfl

/-- A store that takes both writes holds the series afterwards. -/
theorem save_of_serves (chart : store.Serves keys.chart) (position : store.Serves keys.cursor)
    (known : s.cursor = some cursor) :
    (save keys s store).value = (holding keys s cursor store, .ok ()) := by
  rcases save_cases keys known store with ⟨refused, -⟩ | ⟨refused, -⟩ | eq
  · exact absurd chart.2 refused
  · exact absurd position.2 refused
  · exact eq

theorem Holds.chartWritten (h : Holds keys store position points) (distinct : keys.chart ≠ keys.cursor)
    (storable : Storable s.samples) : Holds keys (holdingChart keys s store) position s := by
  obtain ⟨qs, reloads, -⟩ := exists_forall₂_reloadsAs storable.finite
  constructor
  · rw [holdingChart, Store.entry?, Store.lookup_putEntry_of_ne distinct.symm]
    exact h.cursor
  · rw [holdingChart, Store.entry?, Store.lookup_putEntry_self,
      storedSamples_writeChart storable.ordered reloads]
    exact .inr reloads

theorem entry?_holding (s : Series) (cursor : Millis) (store : Store)
    (distinct : keys.chart ≠ keys.cursor) :
    Store.entry? (holding keys s cursor store) keys.chart = some (writeChart s) ∧
      Store.entry? (holding keys s cursor store) keys.cursor = some (writeCursor cursor) := by
  constructor
  · rw [holding, Store.entry?, Store.lookup_putEntry_of_ne distinct, Store.lookup_putEntry_self]
  · rw [holding, Store.entry?, Store.lookup_putEntry_self]

theorem holds_holding (store : Store) (distinct : keys.chart ≠ keys.cursor)
    (storable : Storable s.samples) (known : position.cursor = some cursor) :
    Holds keys (holding keys s cursor store) position s := by
  obtain ⟨chartEntry, cursorEntry⟩ := entry?_holding s cursor store distinct
  obtain ⟨qs, reloads, -⟩ := exists_forall₂_reloadsAs storable.finite
  constructor
  · rw [cursorEntry, storedCursor, Option.bind_some, readCursor?_writeCursor, known]
  · rw [chartEntry, storedSamples_writeChart storable.ordered reloads]
    exact .inr reloads

/-- What was saved is loaded as what its samples return as. -/
theorem value_load_holding (chart : store.Serves keys.chart) (position : store.Serves keys.cursor)
    (distinct : keys.chart ≠ keys.cursor) (ordered : Series.Ordered s.samples) {qs : List Sample}
    (reloads : List.Forall₂ Sample.ReloadsAs s.samples qs) :
    (load keys (holding keys s cursor store)).value = ⟨qs, some cursor⟩ := by
  have reads {key : String} (h : store.Serves key) :
      (holding keys s cursor store).read? key = Store.entry? (holding keys s cursor store) key :=
    Store.read?_of_readable h.1
  obtain ⟨chartEntry, cursorEntry⟩ := entry?_holding s cursor store distinct
  rw [value_load, reads chart, reads position, chartEntry, cursorEntry, storedCursor,
    Option.bind_some, readCursor?_writeCursor, storedSamples_writeChart ordered reloads]

/-- **What was saved is loaded again**: the instants and the cursor. -/
theorem load_holding (chart : store.Serves keys.chart) (position : store.Serves keys.cursor)
    (distinct : keys.chart ≠ keys.cursor) (ordered : Series.Ordered s.samples)
    (finite : ∀ p ∈ s.samples, p.Finite) :
    (load keys (holding keys s cursor store)).value.Shows s.times (some cursor) := by
  obtain ⟨qs, reloads, reloadsFinite⟩ := exists_forall₂_reloadsAs finite
  rw [value_load_holding chart position distinct ordered reloads]
  exact ⟨times_of_reloadsAs reloads, rfl, reloadsFinite⟩

/-! ### Clearing -/

theorem clear_of_removes (h : store.guard.Removes keys) :
    (clear keys store).value =
      { store with entries := Store.dropEntry keys.cursor (Store.dropEntry keys.chart store.entries) } := by
  have second : Guard.refusesRemoval (Store.guard
      { store with entries := Store.dropEntry keys.chart store.entries }) keys.cursor = none := h.2
  simp only [clear, Logged.value_bind, Store.remove_of_granted h.1, Store.remove_of_granted second]

theorem guard_clear (keys : ArchiveKeys) (store : Store) :
    (clear keys store).value.guard = store.guard := by
  have kept : ∀ (s : Store) (key : String), (s.remove key).value.guard = s.guard := by
    intro s key
    unfold Store.remove
    split <;> rfl
  exact (kept _ keys.cursor).trans (kept store keys.chart)

theorem entry?_clear (h : store.guard.Removes keys) :
    Store.entry? (clear keys store).value keys.chart = none ∧
      Store.entry? (clear keys store).value keys.cursor = none := by
  rw [clear_of_removes h]
  refine ⟨?_, Store.lookup_dropEntry_self keys.cursor _⟩
  by_cases same : keys.chart = keys.cursor
  · rw [same]
    exact Store.lookup_dropEntry_self keys.cursor _
  · exact (Store.lookup_dropEntry_of_ne same _).trans (Store.lookup_dropEntry_self keys.chart _)

end Archive

end MinerWatch
