import Hygiene.Text.Ranges

/-!
# Extending characters

Grapheme_Extend: characters that attach to the one before them. The two halfwidth sound marks of katakana have a width
of their own and are not counted here. No ASCII character is one.
-/

namespace Hygiene.Text

/-- The characters that extend the one before them. -/
def extendingClass : CodeClass := .ofRows [
  "300-6f 114-6 108-2c 2 2-1 2-1 2 49-a 31-14 11 66-6 3-5 3-1 2-3 24 1f-1a 5c-a 3b-8 a 19-3 2-8 2-2 2-4 2c-2 3c-8",
  "2b-17 2-1f 38 2 5-7 5 4-6 b-1 1e 3b 2 3-3 9 a b-1 1b 3-1 3a 5-1 5-1 3-2 4 1f-1 4 c-1 3a 5-4 2-1 5 15-1 17-5 2 3b",
  "2-1 2-3 9 8-2 b-1 1f 3c 2 d a 29 4 38 2-2 6-2 2-3 8-1 c-1 1e 3b 3-1 2 4-2 2-3 8-1 c-1 1d-1 3a-1 2 3-3 9 a b-1 1e",
  "49 5 3-2 2 9 52 3-6 d-7 63 3-8 c-6 4a-1 1c 2 2 38-d 2-4 2-1 6-a 2-23 a 67-3 2-5 2-1 3-1 1a-1 5-2 11-3 e 3-1 7 10",
  "2c0-2 3b3-3 1d-2 1e-1 1f-1 41-1 2-6 9 3-a a 2e-2 2 76-1 23 77-2 5-1 a 7-2 dc-1 3 3b 2-6 2 2 3-7 7-9 3 31-2d 3-b",
  "15-3 31-9 5-2 27-8 d-1 21-3 3-5 39 2-1 4 2-4 39-7 3-1 99-2 2-c 2-6 5 7 4-1 c7-3f 20d c4-20 bff-2 8e 61-1f 22b-5",
  "6a-1 75d5-3 2-9 21-1 51-1 111 4 5 1a-1 6 98-1 1b-11 e 27-7 1a-a 2 2d-2 31 3-3 3-1 3 25 44-5 3-1 3-1 d 9 30 34",
  "2-2 3-1 6-1 2 2b-1 9 ef 3 5 4f31 2e2-f 11-f 3ce e3 96-4 687-2 2-1 6-3 29-2 5 a6-1 23e-3 42-4 13e-1 4e-5 47-a",
  "32-3 7c 37-e 2a 3-1 b-2 32-3 3-1 8 3e-2 25-4 2-7 3f d-1 35-8 2 9-3 3 60-2 3-3 7 3 9e 4-7 16-1 3a-1 2 2 d a f-6",
  "4-4 44 3-5 2 3 2-2 5-2 2 f-1 56-7 3-2 2 18 52 3-5 2 3 2-1 2-1 ec 3-3 7-1 2-1 1c-1 56-7 3 2-1 6b 2 3-7 66 2 3-3",
  "2-4 104-8 2-1 f6 b-3 5 91-3 3-1 5 21-9 29-5 3-3 9 a-5 3-2 2f-c 2-1 c7 2-2 2 ca-6 2-5 2 53-15 3-6 2-1 2-1 7b-5 4",
  "2-1 2-6 2 49-1 4 2 15c-1 c-1 35-4 6-2 18 14e6 7-e 2cc9-b 4-2 9c1-4 3c-6 419 40-3 52 c-1 4cac-1 1262-2d 3-16",
  "21f-4 4-5 9-7 3-6 1f-3 95-2 7bc-36 5-31 9 f 17-4 2-e 551-6 2-10 3-6 2-1 2-4 65 a1-6 178 3e-3 1fd-3 ff-1 f4 3 8-1",
  "6 1db-6 6e-6 c16d6-5f 81-ef"]

/-- Whether a character attaches to the one before it. -/
def isExtending (c : Char) : Bool :=
  !isAscii c && extendingClass.contains c

end Hygiene.Text
