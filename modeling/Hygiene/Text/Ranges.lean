import Hygiene.Text.Search

/-!
# Character classes given by ranges

A class of characters is a list of inclusive ranges of code points. Tables are rows of words in hexadecimal, each of
which counts from where the one before ends: after `aa`, the word `b` is the code point `b5`, and `16-16` is the range
from `c0` to `d6`. ASCII characters are never in a table: each class decides them directly.
-/

namespace Hygiene.Text

/-- The value of a hexadecimal digit. -/
def hexDigit? (c : Char) : Option Nat :=
  if '0' ≤ c ∧ c ≤ '9' then some (c.toNat - 48)
  else if 'a' ≤ c ∧ c ≤ 'f' then some (c.toNat - 87)
  else if 'A' ≤ c ∧ c ≤ 'F' then some (c.toNat - 55)
  else none

/-- The number that hexadecimal digits stand for; other characters count as the digit zero. -/
def hexNumber (digits : List Char) : Nat :=
  digits.foldl (fun n c => n * 16 + (hexDigit? c).getD 0) 0

/-- An inclusive range of code points. -/
structure CodeRange where
  first : Nat
  last : Nat

/-- Reads one word of a table behind a code point: how far the range is from it and, if it is longer than one code
point, how far it goes on. -/
def CodeRange.ofWord (before : Nat) (word : List Char) : CodeRange :=
  match splitOn ['-'] word with
  | [gap, length] => ⟨before + hexNumber gap, before + hexNumber gap + hexNumber length⟩
  | _ => ⟨before + hexNumber word, before + hexNumber word⟩

/-- Reads the words of a table behind a code point. -/
def CodeRange.ofWords (before : Nat) : List (List Char) → List CodeRange
  | [] => []
  | word :: words =>
    let range := ofWord before word
    range :: ofWords range.last words

/-- The words of a table's rows, in order. -/
def tableWords (rows : List String) : List (List Char) :=
  rows.flatMap fun row => splitOn [' '] row.toList

/-- A class of characters outside ASCII. -/
structure CodeClass where
  ranges : List CodeRange

/-- The class that a table's rows list. -/
def CodeClass.ofRows (rows : List String) : CodeClass :=
  ⟨CodeRange.ofWords 0 (tableWords rows)⟩

/-- Whether a character's code point lies in one of the ranges. -/
def CodeClass.contains (cls : CodeClass) (c : Char) : Bool :=
  cls.ranges.any fun r => decide (r.first ≤ c.toNat ∧ c.toNat ≤ r.last)

/-- Whether a character is in ASCII. -/
def isAscii (c : Char) : Bool := decide (c.toNat < 128)

end Hygiene.Text
