import MinerWatch.Json.Codec
import MinerWatch.Millis
/-!
The retention window, and the three intervals over which the device averages.

A window that ends now decides two things: which samples are old enough to be
evicted, and how far back a request may reach (`fetchStart`).
-/

namespace MinerWatch

/-- How far back samples are kept and how far back a request may reach. -/
structure Window where
  span : Millis
  deriving Repr, DecidableEq

namespace Window

def hour : Window := ⟨3600000⟩

def floor (w : Window) (now : Millis) : Millis :=
  Millis.subClamped now w.span

/-- Where the next request starts: right after the cursor, but never before the window. -/
def fetchStart (w : Window) (cursor : Option Millis) (now : Millis) : Millis :=
  match cursor with
  | none => w.floor now
  | some c => max (Millis.next c) (w.floor now)

end Window

/-- The intervals over which the device smooths its hashrate. -/
inductive Averaging where
  | tenMinutes
  | oneHour
  | oneDay
  deriving Repr, DecidableEq

namespace Averaging

def all : List Averaging := [tenMinutes, oneHour, oneDay]

def text : Averaging → String
  | tenMinutes => "10m"
  | oneHour => "1h"
  | oneDay => "1d"

def label (a : Averaging) : String :=
  "Hashrate " ++ a.text

def span : Averaging → Millis
  | tenMinutes => 600000
  | oneHour => 3600000
  | oneDay => 86400000

def codec : Json.Codec Averaging := .choice text all

end Averaging

/-- A raw history value in H/s: the device counts hundredths of a GH/s. -/
def scaleRaw (raw : Float) : Float :=
  raw * 1000000000.0 / 100.0

end MinerWatch
