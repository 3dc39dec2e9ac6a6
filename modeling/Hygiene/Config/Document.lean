import Hygiene.Config.Quoted
import Hygiene.Config.Setting

/-!
# Configuration documents

A document is a sequence of lines: settings, a path of keys with a value, and headers, which name in brackets the table
that the settings after them belong to. Keys may be quoted, dots stand between keys, and a number sign begins a comment.
Values are integers, truth values, quoted text, empty lists and tables in braces.
-/

namespace Hygiene

namespace Setting

open Quoting (isGap isPlain newlineLength)

/-- The rest of a line after blanks. -/
def dropGap (cs : List Char) : List Char := cs.dropWhile isGap

/-- Whether a character may stand in a key without quotes. -/
def isKeyChar (c : Char) : Bool := Text.isAscii c && (c.isAlphanum || c = '_' || c = '-')

/-- The number that digits of a base write, with underscores only between digits. -/
def digitsIn? (base : Nat) (cs : List Char) : Option Nat :=
  let isDigit (c : Char) : Bool := match Text.hexDigit? c with
    | some d => decide (d < base)
    | none => false
  let groups := cs.splitOn '_'
  if groups.all fun g => !g.isEmpty && g.all isDigit then
    some ((cs.filter (· ≠ '_')).foldl (fun n c => n * base + (Text.hexDigit? c).getD 0) 0)
  else none

/-- A decimal number, which has no zero in front. -/
def decimal? (cs : List Char) : Option Nat :=
  match cs with
  | '0' :: _ :: _ => none
  | _ => digitsIn? 10 cs

/-- An integer: decimal with an optional sign, or in base 16, 8 or 2 behind a mark. -/
def integer? (cs : List Char) : Option Int :=
  match cs with
  | '0' :: 'x' :: rest => (digitsIn? 16 rest).map Int.ofNat
  | '0' :: 'o' :: rest => (digitsIn? 8 rest).map Int.ofNat
  | '0' :: 'b' :: rest => (digitsIn? 2 rest).map Int.ofNat
  | '+' :: rest => (decimal? rest).map Int.ofNat
  | '-' :: rest => (decimal? rest).map fun n => -Int.ofNat n
  | _ => (decimal? cs).map Int.ofNat

/-- Whether an integer has 64 bits. -/
def isWide (n : Int) : Bool := -Int.ofNat (Nat.pow 2 63) ≤ n && n < Int.ofNat (Nat.pow 2 63)

/-- The value that a word writes. -/
def ofWord? (cs : List Char) : Option Setting :=
  if cs = "true".toList then some (truth true)
  else if cs = "false".toList then some (truth false)
  else (integer? cs).bind fun n => if isWide n then some (integer n) else none

/-- The key at the start of a text, and the rest. -/
def key? (cs : List Char) : Option (String × List Char) :=
  match cs with
  | '"' :: _ | '\'' :: _ => Quoting.read? false cs
  | _ =>
    let (word, rest) := cs.span isKeyChar
    if word.isEmpty then none else some (String.ofList word, rest)

/-- The path at the start of a text, and the rest after the blanks that follow it. A path has at most `limit` keys. -/
def path? : Nat → List Char → Option (KeyPath × List Char)
  | 0, _ => none
  | limit + 1, cs => do
    let (key, rest) ← key? (dropGap cs)
    match dropGap rest with
    | '.' :: rest =>
      let (path, rest) ← path? limit rest
      return (⟨key :: path.way, path.last⟩, rest)
    | rest => return (⟨[], key⟩, rest)

/-- The rest of a text after blanks, newlines and comments. -/
def dropFiller (inComment : Bool) : List Char → List Char
  | [] => []
  | c :: cs =>
    if c = '\n' then dropFiller false cs
    else if newlineLength (c :: cs) ≠ 0 then dropFiller inComment cs
    else if inComment then if isPlain c then dropFiller true cs else c :: cs
    else if isGap c then dropFiller false cs
    else if c = '#' then dropFiller true cs
    else c :: cs

mutual

/-- The value at the start of a text, and the rest. Values nest at most `limit` deep. -/
def value? : Nat → List Char → Option (Setting × List Char)
  | 0, _ => none
  | limit + 1, cs =>
    match cs with
    | '"' :: _ | '\'' :: _ => (Quoting.read? true cs).map fun (text, rest) => (str text, rest)
    | '[' :: rest =>
      match dropFiller false rest with
      | ']' :: rest => some (emptyList, rest)
      | _ => none
    | '\x7b' :: rest =>
      match dropGap rest with
      | '\x7d' :: rest => some (table .braces [], rest)
      | rest => entries? limit [] rest
    | _ =>
      let (word, rest) := cs.span fun c => c.isAlphanum || c = '_' || c = '+' || c = '-' || c = '.'
      (ofWord? word).map fun value => (value, rest)

/-- The table that entries up to a closing brace make, after those in `done`, and the rest. -/
def entries? : Nat → SettingTable → List Char → Option (Setting × List Char)
  | 0, _, _ => none
  | limit + 1, done, cs => do
    let (path, rest) ← path? cs.length cs
    match rest with
    | '=' :: rest =>
      let (value, rest) ← value? limit (dropGap rest)
      let done ← (SettingTable.put path value done).toOption
      match dropGap rest with
      | ',' :: rest => entries? limit done rest
      | '\x7d' :: rest => some (table .braces done, rest)
      | _ => none
    | _ => none

end

/-- The text after the end of a line that has only blanks and a comment left. -/
def lineEnd? (cs : List Char) : Option (List Char) :=
  let rest := match dropGap cs with
    | '#' :: rest => rest.dropWhile isPlain
    | rest => rest
  match newlineLength rest with
  | 0 => if rest.isEmpty then some [] else none
  | length => some (rest.drop length)

end Setting

/-- A line of a document. -/
inductive ConfigLine where
  | blank
  | header (path : KeyPath)
  | setting (path : KeyPath) (value : Setting)
deriving Repr

/-- The line at the start of a text, and the text after its end. -/
def ConfigLine.read? (cs : List Char) : Option (ConfigLine × List Char) :=
  match Setting.lineEnd? cs with
  | some rest => some (blank, rest)
  | none =>
    match Setting.dropGap cs with
    | '[' :: cs => do
      let (path, rest) ← Setting.path? cs.length cs
      match rest with
      | ']' :: rest => return (header path, ← Setting.lineEnd? rest)
      | _ => none
    | cs => do
      let (path, rest) ← Setting.path? cs.length cs
      match rest with
      | '=' :: rest =>
        let (value, rest) ← Setting.value? cs.length (Setting.dropGap rest)
        return (setting path value, ← Setting.lineEnd? rest)
      | _ => none

/-- What has been read of a document. -/
structure Document where
  /-- The settings read so far. -/
  table : SettingTable := []
  /-- The keys of the table that the next settings belong to. -/
  place : List String := []
deriving Repr

namespace Document

/-- The document with one more line. -/
def add (d : Document) : ConfigLine → Except ConfigFault Document
  | .blank => .ok d
  | .header path => (d.table.declare path).map fun table => ⟨table, path.keys⟩
  | .setting path value => (d.table.putBelow d.place path value).map fun table => ⟨table, d.place⟩

/-- The document with the lines of a text added, at most `limit`. The newlines of the whole document give a wrong line
its number. -/
def addLines (newlines : Nat) : Nat → Document → List Char → Except ConfigFault Document
  | _, d, [] => .ok d
  | 0, d, _ => .ok d
  | limit + 1, d, cs =>
    match ConfigLine.read? cs with
    | none => .error (.malformedLine (newlines - cs.count '\n' + 1))
    | some (line, rest) => do
      let d ← d.add line
      addLines newlines limit d rest

end Document

/-- The settings of a document. A byte order mark in front is dropped. -/
def SettingTable.ofText (text : String) : Except ConfigFault SettingTable :=
  let cs := match text.toList with
    | '\ufeff' :: cs => cs
    | cs => cs
  (Document.addLines (cs.count '\n') cs.length {} cs).map (·.table)

end Hygiene
