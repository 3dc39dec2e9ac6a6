import Hygiene.Assoc
import Hygiene.Search
import Hygiene.Source.Span

/-!
# Source texts and positions

Texts are registered under a name and numbered in order. An offset becomes a line and a column, both counted from 1 and
in bytes; offsets past the end are on the last line. The line is looked for among the offsets at which lines begin.
-/

namespace Hygiene

/-- The number of bytes that characters take. -/
def byteLength (cs : List Char) : Nat := cs.foldl (fun n c => n + c.utf8Size) 0

/-- The offsets after the newlines of a text that begins at `offset`. -/
def newlineEnds (offset : Nat) : List Char → List Nat
  | [] => []
  | c :: cs =>
    let next := offset + c.utf8Size
    if c = '\n' then next :: newlineEnds next cs else newlineEnds next cs

/-- The offsets at which the lines of a text begin. -/
def lineStarts (text : String) : List Nat := 0 :: newlineEnds 0 text.toList

/-- The characters of a text that begin in a range of offsets, where the text begins at `offset`. -/
def charsBetween (start stop offset : Nat) : List Char → List Char
  | [] => []
  | c :: cs =>
    let rest := charsBetween start stop (offset + c.utf8Size) cs
    if start ≤ offset ∧ offset < stop then c :: rest else rest

/-- Whether the character ends a line. -/
def endsLine (c : Char) : Bool := c = '\n' || c = '\r'

/-- A text under its name, with the offsets of its lines. -/
structure SourceText where
  name : String
  text : String
  starts : List Nat := lineStarts text
  starts_eq : starts = lineStarts text := by rfl

/-- The number of lines. -/
def SourceText.lineCount (s : SourceText) : Nat := s.starts.length

/-- The offset at which the line behind the first `n` ends: where the next one begins, or at the end of the text. -/
def SourceText.stop (s : SourceText) (n : Nat) : Nat := s.starts[n + 1]?.getD s.text.utf8ByteSize

/-- A line by its number, without what ends it. -/
def SourceText.line? (s : SourceText) (number : Nat) : Option String :=
  if number = 0 then none
  else s.starts[number - 1]?.map fun start =>
    String.ofList ((charsBetween start (s.stop (number - 1)) 0 s.text.toList).reverse.dropWhile endsLine).reverse

/-- The place of the line of an offset among the starts of lines. -/
def SourceText.lineIndex (s : SourceText) (offset : Nat) : Nat :=
  match binarySearch s.starts offset with
  | .ok i => i
  | .error i => i - 1

/-- The line and the column of an offset. -/
def SourceText.lineColumn (s : SourceText) (offset : Nat) : Nat × Nat :=
  let index := s.lineIndex offset
  (index + 1, offset - s.starts[index]?.getD 0 + 1)

/-- A place in a text. -/
structure Position where
  line : Nat
  column : Nat
  offset : Nat
deriving Repr, DecidableEq

/-- The place of an offset. -/
def SourceText.position (s : SourceText) (offset : Nat) : Position :=
  let (line, column) := s.lineColumn offset
  ⟨line, column, offset⟩

/-- A span whose ends have been looked up in the text they lie in. -/
structure Location where
  file : Nat
  start : Position
  stop : Position
deriving Repr, DecidableEq

theorem findIdx?_empty (name : String) :
    Assoc.get? name ([] : List (String × Nat)) = ([] : List SourceText).findIdx? (·.name = name) := rfl

/-- The texts seen so far, by number, and the number of each name. -/
structure Sources where
  texts : List SourceText := []
  byName : List (String × Nat) := []
  indexed : ∀ name, Assoc.get? name byName = texts.findIdx? (·.name = name) := by exact findIdx?_empty

namespace Sources

/-- The text with the given number. -/
def text? (s : Sources) (file : Nat) : Option SourceText := s.texts[file]?

/-- The number under which a name is registered. -/
def find? (s : Sources) (name : String) : Option Nat := Assoc.get? name s.byName

/-- A text under a new name is found behind the others. -/
theorem indexed_add (s : Sources) (t : SourceText) (h : s.find? t.name = none) (name : String) :
    Assoc.get? name (Assoc.insert t.name s.texts.length s.byName) = (s.texts ++ [t]).findIdx? (·.name = name) := by
  rw [Assoc.get?_insert, List.findIdx?_append, ← s.indexed]
  by_cases hname : t.name = name
  · subst hname
    rw [find?] at h
    simp [h]
  · simp [hname]

/-- Registers a text and answers its number. A name that is registered already keeps its text and number. -/
def add (s : Sources) (name text : String) : Nat × Sources :=
  let t : SourceText := { name, text }
  match h : s.find? name with
  | some file => (file, s)
  | none => (s.texts.length, ⟨s.texts ++ [t], Assoc.insert name s.texts.length s.byName, s.indexed_add t h⟩)

/-- Looks up the ends of a span; a text that is not registered has no locations. -/
def locate (s : Sources) (file : Nat) (span : Span) : Option Location :=
  (s.text? file).map fun t => ⟨file, t.position span.start, t.position span.stop⟩

/-- The location of a site. -/
def locateSite (s : Sources) (site : Site) : Option Location :=
  site.file.bind fun file => s.locate file site.span

end Sources

end Hygiene
