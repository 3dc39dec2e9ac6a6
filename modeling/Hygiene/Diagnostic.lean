import Hygiene.Source.Text

/-!
# Diagnostics

A diagnostic is a message about a place in a text, with a code, secondary places, notes and advice. It is shown as a
header, the line with a row of carets, and the secondary parts.
-/

namespace Hygiene

/-- How grave a diagnostic is. -/
inductive Severity where
  | error
  | warning
  | info
deriving Repr, DecidableEq

namespace Severity

/-- The word for a severity. -/
def word : Severity → String
  | error => "error"
  | warning => "warning"
  | info => "info"

/-- The terminal colour of a severity. -/
def colour : Severity → String
  | error => "31"
  | warning => "33"
  | info => "36"

end Severity

/-- A secondary place, such as where a transformer was declared. -/
structure Label where
  location : Option Location
  message : String

/-- A message about a place in a text. -/
structure Diagnostic where
  severity : Severity
  code : Option String := none
  message : String
  location : Option Location
  labels : List Label := []
  notes : List String := []
  help : List String := []

namespace Diagnostic

/-- Whether the diagnostic is an error. -/
def isError (d : Diagnostic) : Bool := d.severity = .error

/-- Text in a terminal colour, when colours are wanted. -/
def paint (colours : Bool) (code text : String) : String :=
  if colours then "\x1b[" ++ code ++ "m" ++ text ++ "\x1b[0m" else text

/-- A text repeated. -/
def repeated (n : Nat) (c : Char) : String := String.ofList (List.replicate n c)

/-- How many carets underline a location on its first line: its width, or the rest of the line when it goes on, and at
least one. -/
def caretWidth (location : Location) (line : String) : Nat :=
  let width :=
    if location.start.line = location.stop.line then location.stop.column - location.start.column
    else line.utf8ByteSize - (location.start.column - 1)
  max width 1

/-- The line a location starts on, between a bar and a row of carets. -/
def excerpt (colours : Bool) (colour : String) (location : Location) (line : String) : String :=
  let gutter := toString location.start.line
  let pad := repeated gutter.length ' '
  let carets := paint colours colour (repeated (caretWidth location line) '^')
  pad ++ " |\n" ++ gutter ++ " | " ++ line ++ "\n" ++
    pad ++ " | " ++ repeated (location.start.column - 1) ' ' ++ carets ++ "\n"

/-- A location as `name:line:column` after an arrow. -/
def arrowTo (colours : Bool) (text : SourceText) (location : Location) : String :=
  "  " ++ paint colours "96" "-->" ++ " " ++ text.name ++ ":" ++ toString location.start.line ++ ":" ++
    toString location.start.column

/-- The lines about a place, when it lies in a registered text. -/
def aboutPlace (sources : Sources) (place : Option Location) (write : SourceText → Location → String) : String :=
  match place with
  | none => ""
  | some location => match sources.text? location.file with
    | none => ""
    | some text => write text location

/-- The whole text of a diagnostic. -/
def render (d : Diagnostic) (sources : Sources) (colours : Bool) : String :=
  let colour := d.severity.colour
  let header := d.severity.word ++ (d.code.map fun code => "[" ++ code ++ "]").getD ""
  let place := aboutPlace sources d.location fun text location =>
    arrowTo colours text location ++ "\n" ++
      ((text.line? location.start.line).map (excerpt colours colour location)).getD ""
  let labels := d.labels.map fun label => aboutPlace sources label.location fun text location =>
    arrowTo colours text location ++ ": " ++ label.message ++ "\n"
  let help := d.help.map fun line => "     " ++ paint colours "32" "help" ++ ": " ++ line ++ "\n"
  let notes := d.notes.map fun line => paint colours "34" "note" ++ ": " ++ line ++ "\n"
  paint colours colour header ++ ": " ++ d.message ++ "\n" ++ place ++ String.join (labels ++ help ++ notes)

/-- The texts of several diagnostics, with an empty line between them. -/
def renderAll (ds : List Diagnostic) (sources : Sources) (colours : Bool) : String :=
  "\n".intercalate (ds.map (render · sources colours))

/-- How many diagnostics have a severity. -/
def countOf (ds : List Diagnostic) (severity : Severity) : Nat := ds.countP (·.severity = severity)

/-- Whether any of the diagnostics is an error. -/
def anyError (ds : List Diagnostic) : Bool := ds.any isError

end Diagnostic

end Hygiene
