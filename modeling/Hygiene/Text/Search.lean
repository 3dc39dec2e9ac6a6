/-!
# Search and splitting

The leftmost occurrence of one text in another, and the parts of a text between occurrences of a separator. All
positions count characters.
-/

namespace Hygiene.Text

/-- The position of the leftmost occurrence of `needle`; the empty text occurs at once. -/
def indexOf? (needle : List Char) : List Char → Option Nat
  | [] => if needle.isEmpty then some 0 else none
  | c :: cs => if needle.isPrefixOf (c :: cs) then some 0 else (indexOf? needle cs).map (· + 1)

/-- The parts of a text between occurrences of `separator`, given how many characters of one are still to be passed over
and the part read so far, in reverse. -/
def splitFrom (separator : List Char) : Nat → List Char → List Char → List (List Char)
  | _, part, [] => [part.reverse]
  | pending + 1, part, _ :: cs => splitFrom separator pending part cs
  | 0, part, c :: cs =>
    if separator.isPrefixOf (c :: cs) then
      part.reverse :: splitFrom separator (separator.length - 1) [] cs
    else
      splitFrom separator 0 (c :: part) cs

/-- The parts of a text between the leftmost non-overlapping occurrences of a separator that is not empty. -/
def splitOn (separator text : List Char) : List (List Char) := splitFrom separator 0 [] text

end Hygiene.Text
