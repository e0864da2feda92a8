import MinerWatch.Text.Blank
/-!
Addresses of the device: its origin, and queries appended to a path.

A key or value in a query escapes the characters that would end it or be taken for
an escape. The percent sign goes first, so the escapes that follow stay as they are.
-/

namespace MinerWatch.Text

def replaceChar (c : Char) (new : List Char) (cs : List Char) : List Char :=
  cs.flatMap fun d => if d = c then new else [d]

def escapeQuery (cs : List Char) : List Char :=
  replaceChar '#' ['%', '2', '3'] <|
  replaceChar '?' ['%', '3', 'F'] <|
  replaceChar '=' ['%', '3', 'D'] <|
  replaceChar '&' ['%', '2', '6'] <|
  replaceChar ' ' ['%', '2', '0'] <|
  replaceChar '%' ['%', '2', '5'] cs

def queryPart (param : String × String) : List Char :=
  escapeQuery param.1.toList ++ '=' :: escapeQuery param.2.toList

/-- The address with a query of these parameters in order. Without any it stays as it is. -/
def withQuery (base : String) (params : List (String × String)) : String :=
  if params.isEmpty then base
  else base ++ "?" ++ String.ofList (['&'].intercalate (params.map queryPart))

/-- The origin in front of a path: white space around it is dropped, then slashes at its end. -/
def originOf (s : String) : String :=
  String.ofList (dropEnd (· = '/') (trim s.toList))

end MinerWatch.Text
