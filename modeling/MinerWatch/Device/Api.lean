import MinerWatch.Device.Info
import MinerWatch.Log
import MinerWatch.Text.Query
import MinerWatch.Text.Quoted
/-!
The device's interface: the addresses of its three answers, and reading an answer.
-/

namespace MinerWatch

open Json

structure DeviceApi where
  origin : String
  deriving Repr, DecidableEq

inductive Answer where
  | replied (status : UInt16) (statusText body : String)
  /-- No response at all, for a named reason. -/
  | failed (name message : String)
  deriving Repr, DecidableEq

namespace DeviceApi

def component : Component := ⟨.infrastructure, "DeviceHttpClient"⟩

/-- The interface at an origin, brought into shape. An empty origin is the page's own. -/
def ofOrigin (origin : String) : DeviceApi := ⟨Text.originOf origin⟩

def headers : List (String × String) := [("Accept", "application/json")]

def sinceQuery (start : Millis) : List (String × String) :=
  [("ts", Decimal.natText start.toNat)]

def infoUrl (api : DeviceApi) (start : Millis) : String :=
  Text.withQuery (api.origin ++ "/api/system/info") (sinceQuery start)

def extentUrl (api : DeviceApi) : String :=
  api.origin ++ "/api/history/len"

def historyUrl (api : DeviceApi) (start : Millis) : String :=
  Text.withQuery (api.origin ++ "/api/history/data") (sinceQuery start)

def sentNotice (url : String) : Notice :=
  ⟨.debug, component, "🌐 GET " ++ url, none⟩

def isSuccess (status : UInt16) : Bool :=
  200 ≤ status && status < 300

def unsentReason (name message : String) : String :=
  "Failed to send request: JsError(JsError \x7b name: " ++ Text.quote name ++ ", message: "
    ++ Text.quote message ++ " \x7d)"

def unreadableReason : String :=
  "Failed to parse JSON: SerdeError(" ++ refusalText ++ ")"

def readAnswer {α : Type} (c : Codec α) (a : Answer) : Logged (Except HostFault α) :=
  match a with
  | .failed name message => pure (.error (.network (.unsent (unsentReason name message))))
  | .replied status statusText body =>
    if isSuccess status then
      match c.read body with
      | some value => pure (.ok value)
      | none => pure (.error (.network (.unreadable unreadableReason)))
    else do
      let fault := NetworkFault.status status statusText
      Logged.note .warn component ("❌ " ++ fault.message)
      pure (.error (.network fault))

end DeviceApi
end MinerWatch
