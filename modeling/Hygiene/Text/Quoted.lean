import Hygiene.Text.Printable
import Hygiene.Text.Extending

/-!
# Quoted text

A text between double quotes, or a character between single quotes, in which every character that could not be seen is
written as an escape: the quote, the backslash, the line, carriage and tab controls and NUL by a letter, and every other
unprintable or extending character by its code point in braces.
-/

namespace Hygiene.Text

/-- A code point in lower case hexadecimal digits. -/
def hexText (n : Nat) : List Char := Nat.toDigits 16 n

/-- A character as it is written between quotes of the given kind. -/
def escaped (quote : Char) (c : Char) : List Char :=
  if c = '\x00' then ['\\', '0']
  else if c = '\t' then ['\\', 't']
  else if c = '\r' then ['\\', 'r']
  else if c = '\n' then ['\\', 'n']
  else if c = '\\' ∨ c = quote then ['\\', c]
  else if isExtending c ∨ ¬ isPrintable c then ['\\', 'u', '\x7b'] ++ hexText c.toNat ++ ['\x7d']
  else [c]

/-- A text between double quotes. -/
def quoted (s : String) : String :=
  String.ofList ('"' :: s.toList.flatMap (escaped '"') ++ ['"'])

/-- A character between single quotes. -/
def quotedChar (c : Char) : String :=
  String.ofList ('\'' :: escaped '\'' c ++ ['\''])

end Hygiene.Text
