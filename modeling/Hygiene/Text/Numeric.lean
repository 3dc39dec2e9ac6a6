import Hygiene.Text.Ranges

/-!
# Numeric characters

Decimal digits, letter numbers and other numbers: the Unicode categories Nd, Nl and No.
-/

namespace Hygiene.Text

/-- The numeric characters outside ASCII. -/
def numericClass : CodeClass := .ofRows [
  "b2-1 6 3-2 5a2-9 87-9 c7-9 19d-9 77-9 5-5 6d-9 77-9 77-9 3-5 6f-c 74-9 9-6 68-9 69-6 8-12 6e-9 61-9 77-9 47-13",
  "10d-9 47-9 2d0-13 372-2 f0-9 7-9 17-9 12d-9 81-a a6-9 7-9 b7-9 57-9 87-9 7-9 417 4-5 7-9 c7-32 3-4 2d7-3b 4f-15",
  "277-1d 56a 30a 1a-8 f-2 158-3 8b-9 1f-7 2-e 21-9 28-e 7361-9 bd-9 141-5 9b-9 27-9 c7-9 17-9 57-9 197-9 5317-9",
  "1ee-2c d-38 12-1 156-1a 25-3 1e 9 87-4 cb-9 3af-7 1a-6 28-8 4c-4 17-5 a1-1 3-f 3-2d 41-8 35-1 1f-2 4c-4 69-7",
  "19-7 2a-6 14b-5 31-9 7-9 117-1e 9f-9 2b-3 71-6 87-1d 81-9 3d-9 91-9 8-13 fc-9 157-9 77-9 177-9 67-9 7-13 4d-b",
  "1a5-12 5e-9 297-9 57-1c e4-9 47-9 37-9 167-9 67-14 42c-6e 3cc2-9 927-9 57-9 87-9 2-6 20f-9 107-16 15e-2 5cfa-9",
  "5c7-13 d-13 6d-18 456-31 941-9 1a7-9 1f7-9 f8-9 2cd-8 81-9 318-3a 2-2 2-3 4d-2c 2-e 3c3-c ae4-9"]

/-- Whether a character is numeric. -/
def isNumeric (c : Char) : Bool :=
  if isAscii c then c.isDigit else numericClass.contains c

end Hygiene.Text
