import MinerWatch.Fault
import MinerWatch.Sample
/-!
The series: the samples of the last window, and the cursor behind which the device
has nothing new.

Samples come in at the end and only if they are newer than what is there, and leave
at the front. `append` and `trimBefore` also move the cursor, to the last sample
that came in or to the oldest that stayed; merging (`Series.merge`) sets it right
afterwards.
-/

namespace MinerWatch

/-- Samples with non-decreasing instants, oldest first, and the instant up to which history is known. -/
structure Series where
  samples : List Sample
  cursor : Option Millis

namespace Series

def empty : Series := ⟨[], none⟩

def atCursor (cursor : Option Millis) : Series := ⟨[], cursor⟩

def size (s : Series) : Nat :=
  s.samples.length

def times (s : Series) : List Millis :=
  s.samples.map (·.time)

def oldest? (s : Series) : Option Millis :=
  s.samples.head?.map (·.time)

def latest? (s : Series) : Option Sample :=
  s.samples.getLast?

def newest? (s : Series) : Option Millis :=
  s.latest?.map (·.time)

def chart (s : Series) : Chart :=
  .ofSamples s.samples

/-- Samples from which each one that is not newer than all before it is dropped. -/
def newerThan : Option Millis → List Sample → List Sample
  | _, [] => []
  | newest, s :: ss =>
    if newest.all (· < s.time) then s :: newerThan (some s.time) ss else newerThan newest ss

structure Intake where
  accepted : Nat
  rejected : Nat
  deriving Repr, DecidableEq

/-- Takes in the samples that are newer than all before them. The cursor goes to the last of them. -/
def append (s : Series) (batch : List Sample) : Series × Intake :=
  let fresh := newerThan s.newest? batch
  (⟨s.samples ++ fresh, (fresh.getLast?.map (·.time)).or s.cursor⟩,
    ⟨fresh.length, batch.length - fresh.length⟩)

/-- Drops the samples before an instant and counts them. The cursor goes to the oldest that stays. -/
def trimBefore (s : Series) (cutoff : Millis) : Series × Nat :=
  let kept := s.samples.dropWhile (·.time < cutoff)
  (⟨kept, (kept.head?.map (·.time)).or s.cursor⟩, s.size - kept.length)

/-- Moves the cursor forward to an instant; never moves it back. -/
def raiseCursor (s : Series) (time : Millis) : Series :=
  { s with cursor := some (match s.cursor with
    | none => time
    | some c => max c time) }

/-- The first label that is older than the one before it, counted from `index`. -/
def unordered? (index : Nat) : List Millis → Option HistoryFault
  | a :: b :: rest => if b < a then some (.unordered (index + 1) a b) else unordered? (index + 1) (b :: rest)
  | _ => none

/-- A series from stored columns. They must have one length, and the labels may not decrease. -/
def ofColumns (labels : List Millis) (tenMin hour day : List Float) (cursor : Option Millis) :
    Except HistoryFault Series :=
  let n := labels.length
  if tenMin.length ≠ n ∨ hour.length ≠ n ∨ day.length ≠ n then
    .error (.lengths n tenMin.length hour.length day.length)
  else
    match unordered? 0 labels with
    | some fault => .error fault
    | none =>
      .ok ⟨(labels.zip (tenMin.zip (hour.zip day))).map fun (t, a, b, c) => ⟨t, a, b, c⟩, cursor⟩

end Series
end MinerWatch
