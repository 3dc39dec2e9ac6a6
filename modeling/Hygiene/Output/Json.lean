import Hygiene.Number.Decimal
import Hygiene.Text.Ranges

/-!
# JSON

Values of JSON and their text over several lines: two more blanks at each level, and empty arrays and objects on one
line.
-/

namespace Hygiene

/-- A JSON value. The fields of an object are in order. -/
inductive Json where
  | null
  | bool (value : Bool)
  | int (value : Int)
  | real (value : Float)
  | str (value : String)
  | array (items : List Json)
  | object (fields : List (String × Json))

namespace Json

/-- The largest integer up to which all integers are doubles. -/
def maxSafe : Float := 9007199254740991

/-- A number: an integer when it is one and not too large, null when it is not finite. -/
def ofFloat (x : Float) : Json :=
  if Number.isWhole x && x.abs ≤ maxSafe then int (Number.toInt64 x)
  else if x.isFinite then real x
  else null

/-- The last hexadecimal digit of a number. -/
def hexChar (n : Nat) : Char := (Nat.digitChar (n % 16))

/-- A character of a string as it is written. -/
def escape (c : Char) : List Char :=
  if c = '"' then ['\\', '"']
  else if c = '\\' then ['\\', '\\']
  else if c = '\n' then ['\\', 'n']
  else if c = '\r' then ['\\', 'r']
  else if c = '\t' then ['\\', 't']
  else if c = '\x08' then ['\\', 'b']
  else if c = '\x0c' then ['\\', 'f']
  else if c.toNat < 0x20 then ['\\', 'u', '0', '0', hexChar (c.toNat / 16), hexChar c.toNat]
  else [c]

/-- A string between quotes. -/
def quoted (s : String) : String := "\"" ++ String.ofList (s.toList.flatMap escape) ++ "\""

/-- A new line at a level. -/
def newline (level : Nat) : String := "\n" ++ String.ofList (List.replicate (2 * level) ' ')

mutual

/-- The text of a value at a level. -/
def render (level : Nat) : Json → String
  | null => "null"
  | bool b => if b then "true" else "false"
  | int n => toString n
  | real x => Number.compactText x
  | str s => quoted s
  | array [] => "[]"
  | array (item :: items) =>
    "[" ++ newline (level + 1) ++ render (level + 1) item ++ renderItems (level + 1) items ++ newline level ++ "]"
  | object [] => "\x7b\x7d"
  | object ((name, value) :: fields) =>
    "\x7b" ++ newline (level + 1) ++ quoted name ++ ": " ++ render (level + 1) value ++
      renderFields (level + 1) fields ++ newline level ++ "\x7d"

/-- The items after the first one. -/
def renderItems (level : Nat) : List Json → String
  | [] => ""
  | item :: items => "," ++ newline level ++ render level item ++ renderItems level items

/-- The fields after the first one. -/
def renderFields (level : Nat) : List (String × Json) → String
  | [] => ""
  | (name, value) :: fields =>
    "," ++ newline level ++ quoted name ++ ": " ++ render level value ++ renderFields level fields

end

/-- The text of a value. -/
def pretty (value : Json) : String := render 0 value

end Json

end Hygiene
