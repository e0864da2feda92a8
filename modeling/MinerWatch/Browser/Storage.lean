import MinerWatch.Store
/-!
The storage of a browser: whether a page gets at it, and the words in which it refuses.
-/

namespace MinerWatch.Browser

inductive Access where
  | noWindow
  | throws
  | disabled
  | granted
  deriving Repr, DecidableEq

def thrown (name message : String) : String :=
  "JsValue(" ++ name ++ ": " ++ message ++ ")"

def Access.fault? : Access → Option StorageFault
  | noWindow => some (.unavailable "no window")
  | throws => some (.unavailable (thrown "SecurityError" "access denied"))
  | disabled => some (.unavailable "localStorage is disabled")
  | granted => none

def guardOf (reads writes removals : List String) : Guard where
  unreadable key := reads.contains key
  refusesWrite key :=
    if writes.contains key then some (thrown "QuotaExceededError" "quota exceeded") else none
  refusesRemoval key :=
    if removals.contains key then some (thrown "UnknownError" "remove failed") else none

end MinerWatch.Browser
