import MinerWatch.Fault
import MinerWatch.Log
/-!
A store of text entries under text keys.

The host decides at any moment what it refuses: reads, writes and removals of some
keys, writes with a reason that goes into the fault. A refused write leaves the
store as it was. A refused removal only leaves a warning, and an entry that cannot
be read counts as absent.
-/

namespace MinerWatch

/-- What the host refuses at the moment, and in which words. -/
structure Guard where
  unreadable : String → Bool := fun _ => false
  refusesWrite : String → Option String := fun _ => none
  refusesRemoval : String → Option String := fun _ => none

/-- A guard of entries in memory: some keys are over quota, or nothing is written at all. -/
def Guard.inMemory (readOnly : Bool) (overQuota : List String) : Guard where
  refusesWrite key :=
    if overQuota.contains key then some "quota exceeded"
    else if readOnly then some "store is read-only"
    else none

/-- Entries under distinct keys, in no particular order, and what the host refuses. -/
structure Store where
  entries : List (String × String)
  guard : Guard := {}

namespace Store

def component : Component := ⟨.infrastructure, "LocalStorage"⟩

def putEntry (key value : String) (es : List (String × String)) : List (String × String) :=
  (key, value) :: es.filter (fun e => e.1 ≠ key)

def dropEntry (key : String) (es : List (String × String)) : List (String × String) :=
  es.filter (fun e => e.1 ≠ key)

/-- A store that refuses nothing, from entries of which the last under a key counts. -/
def ofEntries (es : List (String × String)) : Store where
  entries := es.foldl (fun acc e => putEntry e.1 e.2 acc) []

/-- What is stored under a key, whether or not the host lets it be read. -/
def entry? (s : Store) (key : String) : Option String :=
  s.entries.lookup key

def read? (s : Store) (key : String) : Option String :=
  if s.guard.unreadable key then none else s.entry? key

def write (s : Store) (key value : String) : Except StorageFault Store :=
  match s.guard.refusesWrite key with
  | some reason => .error (.refused key reason)
  | none => .ok { s with entries := putEntry key value s.entries }

def remove (s : Store) (key : String) : Logged Store :=
  match s.guard.refusesRemoval key with
  | some reason => do
    Logged.note .warn component ("⚠️ Failed to remove '" ++ key ++ "': " ++ reason)
    pure s
  | none => pure { s with entries := dropEntry key s.entries }

/-- The store after somebody else has put an entry under a key or taken it away. No guard keeps others off. -/
def override (s : Store) (key : String) (value : Option String) : Store :=
  { s with entries := match value with
      | some v => putEntry key v s.entries
      | none => dropEntry key s.entries }

def size (s : Store) : Nat :=
  s.entries.length

end Store
end MinerWatch
