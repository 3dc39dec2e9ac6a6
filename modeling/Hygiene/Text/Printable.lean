import Hygiene.Text.Ranges

/-!
# Printable characters

A character is printable unless it is a control, format, surrogate, private use or unassigned code point, a separator
other than the space, or a Hangul filler, which has no shape.
-/

namespace Hygiene.Text

/-- The characters outside ASCII that are not printable. -/
def unprintableClass : CodeClass := .ofRows [
  "80-20 d 2cb-1 7-3 8 2 15 18e 27-1 33-1 4 38-7 1c-3 7-10 17 c1 31-1 3c-1 66-d 3c-1 32-1 10 1d-1 2 c-4 21-6 4c a2",
  "9-1 3-1 17 8 2-2 5-1 a-1 3-1 5-7 2-3 3 6-1 1a-1 4 7-3 3-1 17 8 3 3 3-1 2 6-3 3-1 4-2 2-6 5 2-6 12-9 4 a 4 17 8 3",
  "6-1 b 4 4-1 2-e 5-1 d-6 8 4 9-1 3-1 17 8 3 6-1 a-1 3-1 4-6 4-3 3 6-1 13-9 3 7-2 4 5-2 3 2 3-2 3-2 4-2 d-3 6-2 4",
  "5-1 2-5 2-d 16-4 e 4 18 11-1 a 4 5-6 3 4 3-1 5-1 b-6 17 4 18 b 6-1 a 4 5-6 3-4 4 5-1 b 4-b e 4 34 4 7-3 11-1 1b",
  "4 13-2 19 a 2-1 8-2 2-3 7 2 9-5 b-1 4-b 3b-3 1e-24 3 2 6 19 2 18-1 6 2 8 b-1 5-1f 49 25-3 28 25 10 e-24 c7 2-4",
  "2-1 90-1 e9 5-1 8 2 5-1 2a 5-1 22 5-1 8 2 5-1 10 3a 5-1 44-1 21-2 1b-5 57-1 7-1 281 1d-2 5a-6 17-8 19-8 15-b e 4",
  "3-b 5f-1 b-5 b-5 f c-5 5a-6 2c-4 47-9 20 d-3 d-3 2-2 2b-1 6-a 2d-3 1b-5 c-2 3f-1 42 1e-1 c-5 b-5 f-1 2f-1 d-13",
  "4e a7-7 3d-2 10-2 3f-4 2c-1 c-7 2c-4 217-1 7-1 27-1 7-1 9 2 2 2 20-1 36 10 f-1 7 14-1 4 a-10 19-7 30-10 3-1 1c",
  "e-2 23-d 22-e 8d-3 29b-15 c-14 715-1 17f-4 2e 2-4 2-1 39-6 3-d 19-8 8 8 8 8 8 8 8 8 7f-21 1b 5a-b d7-19 11 40",
  "57-1 68-4 2c 34 2b 57-8 31 726e-2 38-8 15d-13 b9-7 de-13 3d-2 b-5 39-7 47-7 d-5 75-a 1f-2 4f c-3 22 38-8 f-1 b-1",
  "68-17 1d-9 7-1 7-1 7-8 8 8 3d-3 7f-1 b-5 2ba5-b 18-3 32-3 801-18ff 16f-1 6b-25 8-b 6-4 1b 6 2 3 3 28b-1f 2b-5 34",
  "14 5-3 6 88-3 a0 1f-2 7-1 7-1 7-1 4-2 8 8-c 3-1 d 1b 14 3 10-1 f-21 7c-4 4-3 2e-2 59 e-2 2-2e 2f-81 1e-2 32-e",
  "1d-3 25-8 1f-4 2c-4 1f 26-3 f-29 9f-1 b-5 25-3 25-3 29-7 35-a d 10 8 3 c 10 8 3-2 35-b 138-8 17-9 9-17 7 2b a-44",
  "7-1 2 2d 3-2 2-1 18 49-7 a-2f 14 3-4 22-2 1c-4 1c-25 39-3 15-1 33 3-4 9 4 1e-1 4-3 b-6 a-6 41-1f 28-3 d-8 37-2",
  "1e-1 1c-4 1b-6 5-b 8-4f 4a-36 34-c 34-6 2f-7 b-5 27-2 1e-7 3-cf 20 2b 4-1 3-f 7-7 a-20 2f-7 2b-15 1b-25 1d-13",
  "18-8 4f-3 25-8 3f 6-c 1a-6 b-5 36 13-7 28-8 61 15-a 13 30-3d 8 2 5 10 c-5 3c-4 b-5 5 9-1 3-1 17 8 3 6 b-1 3-1",
  "4-1 2-5 2-4 8-1 8-2 6-a b 2-1 2 27 b 2-1 2 5 b 3-7 3-1c 5d 6-1d 49-7 b-a5 37-1 27-21 46-a b-5 e-12 3b-5 b-5",
  "15-1b 1c-1 10-3 18-b8 3d-63 54-b 9-1 2-1 9 3 1f 3-1 d-8 b-45 9-1 2f-1 c-1a 49-7 54-c 4a-6 b-55 9-57 23-d b-5 a",
  "2e f-9 1e-2 21-1 17 f-48 8 3 2d-2 2 3 a-7 b-5 7 3 26 3 7-6 b-5 2d-3 b-f5 1a-6 12 2a-2 1e-54 2-e 33-c 39c-65 70",
  "6-a c5-a4b 64-c 431-f 17-9 f9c-4 248-1ab8 3b-6c5 23a-6 20 b-3 52 b-5 1f-1 7-9 47-9 b 8 16-4 14-1af 3b-c5 5c-4",
  "1a-1 1a-2b 4c-3 3a-6 12-3f 6-a 8-8 1cd7-28 21-60 74-21fc 5 8 3 124-e 2-1c 4-1 2-d 5-7 18d-903 6c-4 e-2 a-6 b-1",
  "5-f5f fe-2 1b5-5 18-e 12-e 2f-1 18-8 75-3b f7-9 28-1 4b-7 71-14 47-79 15-b 15-b 58-8 1a-86 56 48 3-1 2-1 3-1 5 d",
  "2 8 42 5-1 9 8 1d 5 6 2-2 8 155-1 125-1 2bf-e 6 10-44f 20-5 7-d4 8 12-1 8 3 6-4 3f-20 2-6f 2e-2 f-1 b-3 3-13f",
  "20-10 3b-4 2-1cf 2b-d5 2c-3 2-bf 20 17-7 3-df 8 5 3 10 c6-1 11-28 4d-3 b-3 3-310 45-4b 3e-c1 5 1c 3 2-1 2 b 5 2",
  "2-5 2-3 2 2 2 4 3 2-1 2 2 2 2 2 3 2-1 5 8 5 5 2 b 12-4 4 6 12-33 3-10d 2d-3 65-b 10-1 10 10 26-9 af-37 1e-c 2d-3",
  "a-6 3-d 7-99 3da-2 12-2 e-2 db-5 d-3 2-e d-3 39-7 b-5 29-7 1f-1 d-3 3-d a-26 159-7 f-1 e-2 c-2 3a 2-3 11-1 d-3",
  "b-6 94 68-404 a6e1-1f 111f-1 168f-1 1d32-e 26f-9a1 21f-5e1 134c-4 212b-acc85 f1-2fe0f"]

/-- Whether a character can stand for itself in quoted text. -/
def isPrintable (c : Char) : Bool :=
  if isAscii c then decide (32 ≤ c.toNat ∧ c.toNat < 127) else !unprintableClass.contains c

end Hygiene.Text
