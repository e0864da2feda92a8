import MinerWatch.Batch
import MinerWatch.Log
import MinerWatch.Series.Basic
/-!
Merging a batch of history into a series.

A batch that carries nothing changes nothing, and neither does one with a fault.
Any other is appended, the window is trimmed, and the cursor is set to the newest
instant known: the one before the merge, the newest of the batch, or the oldest
sample left, whichever is latest.
-/

namespace MinerWatch

structure MergeReport where
  appended : Nat
  rejected : Nat
  evicted : Nat
  cursor : Option Millis
  /-- The batch carried nothing, and nothing was touched. -/
  skipped : Bool
  deriving Repr, DecidableEq

namespace Series

def mergeComponent : Component := ⟨.domain, "HistoryImporter"⟩

/-- The later of two instants, where none is earlier than any. -/
def laterOf (a b : Option Millis) : Option Millis :=
  match a, b with
  | some a, some b => some (max a b)
  | a, none => a
  | none, b => b

/-- The series after a batch without faults, its parts in order: append, trim, set the cursor. -/
def absorb (s : Series) (window : Window) (batch : Batch) (now : Millis) : Series × MergeReport :=
  let (grown, intake) := s.append batch.samples
  let (trimmed, evicted) := grown.trimBefore (window.floor now)
  let merged :=
    match laterOf s.cursor batch.newest? with
    | some resume => trimmed.raiseCursor resume
    | none => trimmed
  (merged, ⟨intake.accepted, intake.rejected, evicted, merged.cursor, false⟩)

def merge (s : Series) (window : Window) (batch : Batch) (now : Millis) :
    Logged (Series × Except HistoryFault MergeReport) :=
  if batch.isEmpty then pure (s, .ok ⟨0, 0, 0, s.cursor, true⟩)
  else
    match batch.fault? with
    | some fault => do
      Logged.note .warn mergeComponent ("⚠️ Rejecting history fragment: " ++ fault.message)
      pure (s, .error fault)
    | none => do
      let (merged, report) := s.absorb window batch now
      if report.rejected ≠ 0 then
        Logged.note .debug mergeComponent
          ("🔁 Dropped " ++ Decimal.natText report.rejected ++ " overlapping points (kept "
            ++ Decimal.natText report.appended ++ ")")
      pure (merged, .ok report)

end Series
end MinerWatch
