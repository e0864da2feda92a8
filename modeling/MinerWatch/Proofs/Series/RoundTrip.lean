import MinerWatch.Proofs.Series.Archive
import MinerWatch.Proofs.Series.Replay
/-!
A merged series, saved and loaded again.
-/

namespace MinerWatch

open Archive

theorem Archive.Storable.merge {s : Series} (h : Storable s.samples) (w : Window) (b : Batch)
    (now : Millis) : Storable (s.merge w b now).value.1.samples := by
  rcases s.merge_cases w b now with ⟨-, eq⟩ | ⟨_, -, -, eq⟩ | ⟨taken, eq⟩
  · rw [eq]
    exact h
  · rw [eq]
    exact h
  · rw [eq]
    exact h.absorb (Batch.mergeable_iff.mp taken).2 w now

theorem Archive.Storable.replay {s : Series} (h : Storable s.samples) (w : Window)
    (imports : List (Batch × Millis)) : Storable (s.replay w imports).samples := by
  induction imports generalizing s with
  | nil => exact h
  | cons i rest ih => exact ih (h.merge w i.1 i.2)

namespace Archive

variable {keys : ArchiveKeys} {store : Store} {s : Series}

/-- A host that grants everything takes any series. -/
theorem exists_save (obliging : Obliging keys store.guard) (distinct : keys.chart ≠ keys.cursor)
    (s : Series) :
    ∃ written : Store, (save keys s store).value = (written, .ok ()) ∧
      written.guard = store.guard ∧ written.entry? keys.chart = some (writeChart s) ∧
      (storedCursor <| written.entry? keys.cursor) = s.cursor := by
  cases known : s.cursor with
  | some cursor =>
      have serves : store.Serves keys.chart ∧ store.Serves keys.cursor :=
        ⟨⟨obliging.reads.1, obliging.writes.1⟩, obliging.reads.2, obliging.writes.2⟩
      obtain ⟨chartEntry, cursorEntry⟩ := entry?_holding s cursor store distinct
      refine ⟨_, save_of_serves serves.1 serves.2 known, rfl, chartEntry, ?_⟩
      rw [cursorEntry, storedCursor, Option.bind_some, readCursor?_writeCursor]
  | none =>
      have removes : (holdingChart keys s store).guard.refusesRemoval keys.cursor = none :=
        obliging.removes.2
      have removed := Store.remove_of_granted removes
      refine ⟨((holdingChart keys s store).remove keys.cursor).value, ?_, ?_, ?_, ?_⟩
      · simp only [save, Store.write, obliging.writes.1, known, Logged.value_bind, Logged.value_pure]
        rfl
      · rw [removed]
        rfl
      · rw [removed]
        exact (Store.lookup_dropEntry_of_ne distinct _).trans (Store.lookup_putEntry_self ..)
      · rw [removed, Store.entry?, Store.lookup_dropEntry_self]
        rfl

/-- **A merged series that was saved is loaded again**: its instants and its cursor as they were, and
its averages as reading makes of what was written, which is just what they were if that is short. -/
theorem load_saved (obliging : Obliging keys store.guard) (distinct : keys.chart ≠ keys.cursor)
    (w : Window) (imports : List (Batch × Millis)) :
    ∃ written : Store, (save keys (Series.empty.replay w imports) store).value = (written, .ok ()) ∧
      (load keys written).value.times = (Series.empty.replay w imports).times ∧
      (load keys written).value.cursor = (Series.empty.replay w imports).cursor ∧
      List.Forall₂ Sample.ReloadsAs (Series.empty.replay w imports).samples
        (load keys written).value.samples ∧
      List.Forall₂ Sample.KeepsShort (Series.empty.replay w imports).samples
        (load keys written).value.samples := by
  have storable : Storable (Series.empty.replay w imports).samples := storable_nil.replay w imports
  generalize Series.empty.replay w imports = s at storable ⊢
  obtain ⟨written, saved, guard, chartEntry, cursorEntry⟩ := exists_save obliging distinct s
  obtain ⟨qs, reloads, -⟩ := exists_forall₂_reloadsAs storable.finite
  have reads : written.guard.Reads keys := guard ▸ obliging.reads
  have loaded : (load keys written).value = ⟨qs, s.cursor⟩ := by
    rw [value_load, Store.read?_of_readable reads.1, Store.read?_of_readable reads.2, chartEntry,
      cursorEntry, storedSamples_writeChart storable.ordered reloads]
  refine ⟨written, saved, ?_⟩
  rw [loaded]
  exact ⟨times_of_reloadsAs reloads, rfl, reloads, ComesBackAs.keepsShort (.inr reloads)⟩

end Archive

/-! ### An average that drifts

Seventeen digits make a significand of more than 53 bits, which reading rounds before it scales. -/

deriving instance DecidableEq for Sample

def Batch.drifting : Batch :=
  ⟨1000, [0], [1.04881642], [1.0], [1.0]⟩

def Sample.beforeDrift : Sample :=
  ⟨1000, 10488164.200000001, 10000000.0, 10000000.0⟩

def Sample.afterDrift : Sample :=
  ⟨1000, 10488164.2, 10000000.0, 10000000.0⟩

/-- What a merge of the drifting batch leaves of an empty series. -/
def Series.drifting : Series :=
  (Series.empty.absorb .hour .drifting 1000).1

theorem mergeable_drifting : Batch.drifting.mergeable = true := by decide

theorem samples_drifting : Series.drifting.samples = [.beforeDrift] := by decide +kernel

theorem cursor_drifting : Series.drifting.cursor = some 1000 := by decide

theorem afterDrift_ne : Sample.afterDrift ≠ Sample.beforeDrift := by decide

theorem reloadsAs_afterDrift : Sample.beforeDrift.ReloadsAs .afterDrift where
  time := rfl
  tenMin := (Json.Codec.returns_float_iff (by decide)).mpr (by decide +kernel)
  hour := (Json.Codec.returns_float_iff (by decide)).mpr (by decide +kernel)
  day := (Json.Codec.returns_float_iff (by decide)).mpr (by decide +kernel)

/-- The drifting series is not loaded as it was saved, though nothing is refused. -/
theorem value_load_drifting :
    (Archive.load {} (Archive.holding {} .drifting 1000 { entries := [] })).value =
      ⟨[.afterDrift], some 1000⟩ := by
  have serves : ∀ key, Store.Serves { entries := [] } key := fun _ => ⟨rfl, rfl⟩
  have ordered : Series.Ordered Series.drifting.samples := by
    rw [samples_drifting]
    exact List.pairwise_singleton ..
  apply Archive.value_load_holding (serves _) (serves _) (by decide) ordered
  rw [samples_drifting]
  exact .cons reloadsAs_afterDrift .nil

theorem replay_drifting : Series.empty.replay .hour [(.drifting, 1000)] = .drifting :=
  congrArg Prod.fst (Series.merge_of_mergeable .empty .hour 1000 mergeable_drifting)

theorem times_of_saved_drifting :
    ∃ written : Store, (Archive.save {} .drifting { entries := [] }).value = (written, .ok ()) ∧
      (Archive.load {} written).value.times = [1000] ∧
      (Archive.load {} written).value.cursor = some 1000 := by
  have obliging : Obliging {} ({ entries := [] } : Store).guard := ⟨⟨rfl, rfl⟩, ⟨rfl, rfl⟩, ⟨rfl, rfl⟩⟩
  obtain ⟨written, saved, times, cursor, -⟩ :=
    Archive.load_saved obliging (by decide) .hour [(.drifting, 1000)]
  rw [replay_drifting] at saved times cursor
  refine ⟨written, saved, times.trans ?_, cursor.trans cursor_drifting⟩
  rw [Series.times, samples_drifting]
  rfl

/-- The merged series that drifts is saved, and loaded as another. -/
theorem saved_drifting_ne :
    ∃ written : Store,
      (Archive.save {} (Series.empty.replay .hour [(.drifting, 1000)]) { entries := [] }).value =
        (written, .ok ()) ∧
      (Archive.load {} written).value.samples.map (·.tenMin) = [10488164.2] ∧
      (Series.empty.replay .hour [(.drifting, 1000)]).samples.map (·.tenMin) =
        [10488164.200000001] ∧
      (10488164.2 : Float).toBits ≠ (10488164.200000001 : Float).toBits := by
  have serves : ∀ key, Store.Serves { entries := [] } key := fun _ => ⟨rfl, rfl⟩
  rw [replay_drifting, samples_drifting]
  refine ⟨_, Archive.save_of_serves (serves _) (serves _) cursor_drifting, ?_, rfl, by decide⟩
  rw [value_load_drifting]
  rfl

end MinerWatch
