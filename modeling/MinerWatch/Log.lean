import MinerWatch.Json.Codec
import MinerWatch.Millis
/-!
Log lines, and computations that leave some.

A part of the program does not know the time: it leaves `Notice`s, and whoever
holds the clock stamps them into `Entry`s. `Logged` is a result together with the
notices that led to it, in order.
-/

namespace MinerWatch

open Json

/-- How serious a line is, least first. -/
inductive Level where
  | trace
  | debug
  | info
  | warn
  | error
  deriving Repr, DecidableEq

namespace Level

def all : List Level := [trace, debug, info, warn, error]

def rank : Level → Nat
  | trace => 0
  | debug => 1
  | info => 2
  | warn => 3
  | error => 4

def name : Level → String
  | trace => "trace"
  | debug => "debug"
  | info => "info"
  | warn => "warn"
  | error => "error"

/-- The level in a line, padded to five characters. -/
def label : Level → String
  | trace => "TRACE"
  | debug => "DEBUG"
  | info => " INFO"
  | warn => " WARN"
  | error => "ERROR"

/-- The level of this name, in any mix of upper and lower case within ASCII. -/
def ofName? (s : String) : Option Level :=
  let lower := String.ofList (s.toList.map Char.toLower)
  all.find? fun l => l.name = lower

def codec : Codec Level := Codec.choice name all

end Level

inductive Layer where
  | domain
  | application
  | infrastructure
  | presentation
  deriving Repr, DecidableEq

def Layer.tag : Layer → String
  | domain => "DOM"
  | application => "APP"
  | infrastructure => "INF"
  | presentation => "PRE"

structure Component where
  layer : Layer
  name : String
  deriving Repr, DecidableEq

def Component.text (c : Component) : String :=
  c.layer.tag ++ ":" ++ c.name

/-- A line before it is stamped with the time. -/
structure Notice where
  level : Level
  component : Component
  message : String
  metadata : Option String := none
  deriving Repr, DecidableEq

structure Entry where
  time : Millis
  notice : Notice
  deriving Repr, DecidableEq

def Entry.text (e : Entry) (clock : Millis → String) : String :=
  "[" ++ clock e.time ++ "] " ++ e.notice.level.label ++ " " ++ e.notice.component.text
    ++ " | " ++ e.notice.message
    ++ (match e.notice.metadata with
        | none => ""
        | some m => " | " ++ m)

/-- A log: its entries, oldest first. -/
abbrev Log := List Entry

namespace Log

def record (log : Log) (time : Millis) (notices : List Notice) : Log :=
  log ++ notices.map (Entry.mk time)

def ofLevel (log : Log) (level : Level) : Log :=
  log.filter fun e => e.notice.level = level

end Log

def optionText (n : Option Nat) : String :=
  match n with
  | none => "None"
  | some n => "Some(" ++ Decimal.natText n ++ ")"

def cursorText (c : Option Millis) : String :=
  optionText (c.map UInt64.toNat)

/-- A result and the notices that were left on the way to it. -/
structure Logged (α : Type) where
  value : α
  notices : List Notice

namespace Logged

instance : Monad Logged where
  pure a := ⟨a, []⟩
  bind x f :=
    let y := f x.value
    ⟨y.value, x.notices ++ y.notices⟩

@[simp] theorem value_pure {α : Type} (a : α) : (pure a : Logged α).value = a := rfl

@[simp] theorem notices_pure {α : Type} (a : α) : (pure a : Logged α).notices = [] := rfl

@[simp] theorem value_bind {α β : Type} (x : Logged α) (f : α → Logged β) :
    (x >>= f).value = (f x.value).value := rfl

@[simp] theorem notices_bind {α β : Type} (x : Logged α) (f : α → Logged β) :
    (x >>= f).notices = x.notices ++ (f x.value).notices := rfl

def note (level : Level) (component : Component) (message : String) : Logged Unit :=
  ⟨(), [⟨level, component, message, none⟩]⟩

@[simp] theorem value_note (l : Level) (c : Component) (m : String) : (note l c m).value = () := rfl

end Logged
end MinerWatch
