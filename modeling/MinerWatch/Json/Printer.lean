import MinerWatch.Json.Value
/-!
Writing JSON: compact, members in the order of the value.

Strings escape the quote, the backslash and the control characters below the space,
five of them by a letter and the others by their code point, and nothing else.
-/

namespace MinerWatch.Json

open MinerWatch.Decimal

def hexChar (d : Fin 16) : Char :=
  if d.val < 10 then Char.ofNat (48 + d.val) else Char.ofNat (87 + d.val)

def escapeChar (c : Char) : List Char :=
  if c = '"' then ['\\', '"']
  else if c = '\\' then ['\\', '\\']
  else if c = '\n' then ['\\', 'n']
  else if c = '\r' then ['\\', 'r']
  else if c = '\t' then ['\\', 't']
  else if c = '\x08' then ['\\', 'b']
  else if c = '\x0c' then ['\\', 'f']
  else if c.toNat < 32 then
    ['\\', 'u', '0', '0', hexChar (Fin.ofNat 16 (c.toNat / 16)), hexChar (Fin.ofNat 16 (c.toNat % 16))]
  else [c]

/-- A string literal. One that denotes no text is written as a lone surrogate half. -/
def renderLiteral : Literal → List Char
  | some s => '"' :: (s.toList.flatMap escapeChar ++ ['"'])
  | none => ['"', '\\', 'u', 'd', '8', '0', '0', '"']

mutual

def render : Value → List Char
  | .null => ['n', 'u', 'l', 'l']
  | .bool true => ['t', 'r', 'u', 'e']
  | .bool false => ['f', 'a', 'l', 's', 'e']
  | .num n => n.spell
  | .str s => renderLiteral s
  | .arr [] => ['[', ']']
  | .arr (v :: vs) => '[' :: (render v ++ renderItems vs)
  | .obj [] => ['\x7b', '\x7d']
  | .obj ((k, v) :: ms) =>
    '\x7b' :: (renderLiteral k ++ ':' :: (render v ++ renderMembers ms))

/-- The items after the first, and the closing bracket. -/
def renderItems : List Value → List Char
  | [] => [']']
  | v :: vs => ',' :: (render v ++ renderItems vs)

/-- The members after the first, and the closing brace. -/
def renderMembers : List (Literal × Value) → List Char
  | [] => ['\x7d']
  | (k, v) :: ms => ',' :: (renderLiteral k ++ ':' :: (render v ++ renderMembers ms))

end

def Value.toText (v : Value) : String :=
  String.ofList (render v)

end MinerWatch.Json
