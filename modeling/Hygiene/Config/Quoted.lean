import Hygiene.Assoc
import Hygiene.Text.Ranges

/-!
# Quoted text in configuration files

Text stands between two quotes, or between two runs of three quotes; only the latter may go over several lines. Between
double quotes a backslash begins an escape. A newline right after three opening quotes is dropped, and so are a
backslash at the end of a line and the blanks after it.
-/

namespace Hygiene

/-- A way to quote text. -/
structure Quoting where
  /-- The quote. -/
  mark : Char
  /-- Whether a backslash begins an escape. -/
  escapes : Bool
  /-- Whether three quotes stand on each side, and lines may end between them. -/
  block : Bool
deriving Repr, DecidableEq

namespace Quoting

/-- Whether a character is a blank inside a line. -/
def isGap (c : Char) : Bool := c = ' ' || c = '\t'

/-- Whether a character may stand in a comment or in quotes. -/
def isPlain (c : Char) : Bool := c = '\t' || (0x20 ≤ c.toNat && c.toNat ≠ 0x7f)

/-- The number of characters in the newline at the start of a text; zero when there is none. -/
def newlineLength : List Char → Nat
  | '\n' :: _ => 1
  | '\r' :: '\n' :: _ => 2
  | _ => 0

/-- The number of blanks and newline characters at the start of a text. -/
def blankLength : List Char → Nat
  | '\r' :: '\n' :: cs => blankLength cs + 2
  | c :: cs => if isGap c || c = '\n' then blankLength cs + 1 else 0
  | [] => 0

/-- The character with the given code. -/
def charOfCode? (digits : List Char) : Option Char :=
  if digits.all fun c => (Text.hexDigit? c).isSome then
    let n := Text.hexNumber digits
    if h : n.isValidChar then some (Char.ofNatAux n h) else none
  else none

/-- The character that a one-letter escape means. -/
def simpleEscape? (c : Char) : Option Char :=
  Assoc.get? c [('b', '\x08'), ('t', '\t'), ('n', '\n'), ('f', '\x0c'), ('r', '\r'), ('"', '"'), ('\\', '\\')]

/-- What the escape after a backslash means, and the number of its characters. In a block the end of a line may be
escaped with the blanks around it, which means nothing. -/
def escape? (block : Bool) (cs : List Char) : Option (List Char × Nat) :=
  let code (width : Nat) : Option (List Char × Nat) :=
    let digits := (cs.drop 1).take width
    if digits.length < width then none else (charOfCode? digits).map fun c => ([c], width + 1)
  match cs with
  | [] => none
  | 'u' :: _ => code 4
  | 'U' :: _ => code 8
  | e :: _ =>
    match simpleEscape? e with
    | some c => some ([c], 1)
    | none =>
      if block && newlineLength (cs.dropWhile isGap) ≠ 0 then some ([], blankLength cs) else none

/-- The text up to the closing quotes, and the rest. The first `skipped` characters have been read. Of more than three
quotes that close a block, up to two belong to the text. -/
def body? (q : Quoting) : Nat → List Char → Option (List Char × List Char)
  | _, [] => none
  | skipped + 1, _ :: cs => body? q skipped cs
  | 0, c :: cs =>
    if c = q.mark then
      if !q.block then some ([], cs)
      else
        let run := (cs.takeWhile (· = q.mark)).length + 1
        if run < 3 then (body? q 0 cs).map fun (text, rest) => (c :: text, rest)
        else
          let inner := min (run - 3) 2
          some (List.replicate inner c, cs.drop (inner + 2))
    else if c = '\\' && q.escapes then do
      let (meant, length) ← escape? q.block cs
      let (text, rest) ← body? q length cs
      return (meant ++ text, rest)
    else if isPlain c then (body? q 0 cs).map fun (text, rest) => (c :: text, rest)
    else if q.block && newlineLength (c :: cs) ≠ 0 then
      (body? q (newlineLength (c :: cs) - 1) cs).map fun (text, rest) => ('\n' :: text, rest)
    else none

/-- The text in quotes at the start of a text, and the rest after it; three quotes begin a block only where blocks are
allowed. -/
def read? (blocks : Bool) (cs : List Char) : Option (String × List Char) :=
  let read (q : Quoting) (skipped : Nat) (cs : List Char) : Option (String × List Char) :=
    (q.body? skipped cs).map fun (text, rest) => (String.ofList text, rest)
  match cs with
  | [] => none
  | c :: rest =>
    let escapes := decide (c = '"')
    if blocks && rest.take 2 = [c, c] then read ⟨c, escapes, true⟩ (newlineLength (rest.drop 2)) (rest.drop 2)
    else read ⟨c, escapes, false⟩ 0 rest

end Quoting

end Hygiene
