import MinerWatch.Decimal.Style
import MinerWatch.Millis
/-!
What can go wrong, and how it is worded.

Each kind of fault has one `message`. A fault that leaves its part of the program
carries the name of that part in front (`Fault.inLayer`), and the name of the layer
before that when it is shown at the top (`Fault.inProgram`).
-/

namespace MinerWatch

open Decimal

inductive HistoryFault where
  /-- The four sequences differ in length. -/
  | lengths (timestamps tenMin hour day : Nat)
  /-- A stored label is older than the one before it. -/
  | unordered (index : Nat) (previous actual : Millis)
  /-- An instant lies beyond the last one. -/
  | overflow (base offset : Millis)
  /-- A value is not finite in H/s. -/
  | notFinite (index : Nat) (raw : Float)
  deriving DecidableEq

def HistoryFault.message : HistoryFault → String
  | lengths t m h d =>
    "History fragment arrays differ in length (timestamps=" ++ natText t ++ ", 10m=" ++ natText m
      ++ ", 1h=" ++ natText h ++ ", 1d=" ++ natText d ++ ")"
  | unordered i p a =>
    "Label " ++ natText a.toNat ++ " at index " ++ natText i ++ " is older than previous label "
      ++ natText p.toNat
  | overflow b o =>
    "Timestamp base " ++ natText b.toNat ++ " plus offset " ++ natText o.toNat ++ " overflows"
  | notFinite i raw =>
    "Hashrate " ++ messageStyle.text raw ++ " at index " ++ natText i ++ " is not finite after scaling"

inductive SettingsFault where
  | invalid (reason : String)
  | missing (reason : String)
  deriving Repr, DecidableEq

def SettingsFault.message : SettingsFault → String
  | invalid m => "Invalid parameter: " ++ m
  | missing m => "Missing configuration: " ++ m

inductive NetworkFault where
  | unsent (reason : String)
  | status (code : UInt16) (text : String)
  | unreadable (reason : String)
  deriving Repr, DecidableEq

def NetworkFault.message : NetworkFault → String
  | unsent m => "HTTP request failed: " ++ m
  | status c t => "HTTP error: " ++ natText c.toNat ++ " - " ++ t
  | unreadable m => "Invalid response: " ++ m

inductive StorageFault where
  | unavailable (reason : String)
  | refused (key reason : String)
  | unwritable (reason : String)
  deriving Repr, DecidableEq

def StorageFault.message : StorageFault → String
  | unavailable m => "Storage unavailable: " ++ m
  | refused k r => "Failed to write '" ++ k ++ "': " ++ r
  | unwritable m => "Serialization failed: " ++ m

/-- A fault of the world outside the program. -/
inductive HostFault where
  | network (f : NetworkFault)
  | storage (f : StorageFault)
  deriving Repr, DecidableEq

def HostFault.message : HostFault → String
  | network f => "Network: " ++ f.message
  | storage f => "Storage: " ++ f.message

/-- The wording of a fault in history outside the part that checks it. -/
def HistoryFault.inDomain (f : HistoryFault) : String :=
  "Validation: " ++ f.message

inductive Fault where
  | history (f : HistoryFault)
  | settings (f : SettingsFault)
  | host (f : HostFault)

namespace Fault

/-- The wording where the fault arises. -/
def bare : Fault → String
  | history f => f.message
  | settings f => f.message
  | host (.network f) => f.message
  | host (.storage f) => f.message

/-- The wording within the fault's layer. -/
def inLayer : Fault → String
  | history f => f.inDomain
  | settings f => "Configuration: " ++ f.message
  | host f => f.message

/-- The wording at the top of the program. -/
def inProgram : Fault → String
  | history f => "Domain Error: " ++ (history f).inLayer
  | settings f => "Application Error: " ++ (settings f).inLayer
  | host f => "Infrastructure Error: " ++ (host f).inLayer

end Fault
end MinerWatch
