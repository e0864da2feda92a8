import MinerWatch.Json.Codec
/-!
Records: structures as JSON objects with named fields.

One description of the fields serves writing and reading, so a name cannot differ
between the two. Reading skips members that the record does not know, refuses a
known one that is given twice, and starts from a blank value, which keeps what the
text leaves out. A record may also stand as an array of its fields in order.
-/

namespace MinerWatch.Json

structure Field (ρ : Type) where
  name : String
  /-- The text must give the field. -/
  required : Bool
  /-- The written value; `none` leaves the field out. -/
  write : ρ → Option Value
  /-- The record with the field read from a value, unless the value is refused. -/
  read : Value → ρ → Option ρ

namespace Field

variable {ρ α : Type}

def optional (name : String) (c : Codec α) (get : ρ → α) (set : α → ρ → ρ) : Field ρ where
  name := name
  required := false
  write r := some (c.encode (get r))
  read v r := (c.decode v).map (set · r)

def needed (name : String) (c : Codec α) (get : ρ → α) (set : α → ρ → ρ) : Field ρ :=
  { optional name c get set with required := true }

/-- A field that is left out when it is absent. -/
def ifPresent (name : String) (c : Codec α) (get : ρ → Option α) (set : Option α → ρ → ρ) : Field ρ where
  name := name
  required := false
  write r := (get r).map c.encode
  read v r := (c.option.decode v).map (set · r)

end Field

/-- The fields of a record type in order, and the value that they are read into. -/
structure Record (ρ : Type) where
  fields : List (Field ρ)
  blank : ρ

namespace Record

variable {ρ : Type}

def members (r : Record ρ) (a : ρ) : List (Literal × Value) :=
  r.fields.filterMap fun f => (f.write a).map fun v => (some f.name, v)

/-- Reads members into a record, given the names that were already read. -/
def readMembers (r : Record ρ) : List String → ρ → List (Literal × Value) → Option (List String × ρ)
  | seen, a, [] => some (seen, a)
  | _, _, (none, _) :: _ => none
  | seen, a, (some k, v) :: ms =>
    match r.fields.find? (fun f => f.name = k) with
    | none => r.readMembers seen a ms
    | some f =>
      if k ∈ seen then none
      else
        match f.read v a with
        | none => none
        | some a => r.readMembers (k :: seen) a ms

def readItems : List (Field ρ) → ρ → List Value → Option ρ
  | fs, a, [] => if fs.any (·.required) then none else some a
  | [], _, _ :: _ => none
  | f :: fs, a, v :: vs => (f.read v a).bind fun a => readItems fs a vs

def codec (r : Record ρ) : Codec ρ where
  encode a := .obj (r.members a)
  decode
    | .obj ms =>
      match r.readMembers [] r.blank ms with
      | none => none
      | some (seen, a) => if r.fields.all (fun f => !f.required || seen.contains f.name) then some a else none
    | .arr vs => readItems r.fields r.blank vs
    | _ => none

end Record
end MinerWatch.Json
