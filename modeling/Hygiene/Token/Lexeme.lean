import Hygiene.Number.Literal
import Hygiene.Source.Text
import Hygiene.Text.Alphabetic
import Hygiene.Text.Numeric

/-!
# Lexemes

The smallest parts of a text. Each recogniser looks at the characters ahead and answers how many of them belong to the
lexeme.
-/

namespace Hygiene.Lexeme

open Text (isAlphabetic isNumeric hexDigit?)

/-- The punctuators, longer ones before those they begin with. -/
def punctuators : List String :=
  [">>>=", "...", "===", "!==", ">>>", "<<=", ">>=", "**=", "=>", "==", "!=", "<=", ">=", "&&", "||", "??", "?.",
    "++", "--", "+=", "-=", "*=", "/=", "%=", "&=", "|=", "^=", "<<", ">>", "**", "+", "-", "*", "/", "%", "<", ">",
    "=", "!", "~", "&", "|", "^", "?", ":", ";", ",", ".", "#", "@"]

/-- The first punctuator of the table that the text begins with, hence the longest one. -/
def punctuator? (cs : List Char) : Option String :=
  punctuators.find? fun p => p.toList.isPrefixOf cs

/-- Whether a character separates tokens. -/
def isSpace (c : Char) : Bool := c = ' ' || c = '\t' || c = '\r' || c = '\n'

/-- How many characters a block comment takes, counted from after its opening; an unfinished comment takes none. -/
def commentLength? : List Char → Option Nat
  | '*' :: '/' :: _ => some 2
  | _ :: cs => (commentLength? cs).map (· + 1)
  | [] => none

/-- How many characters of blank space or of one comment the text begins with. -/
def triviaLength? : List Char → Option Nat
  | '/' :: '/' :: cs => some (2 + (cs.takeWhile (· ≠ '\n')).length)
  | '/' :: '*' :: cs => (commentLength? cs).map (· + 2)
  | c :: _ => if isSpace c then some 1 else none
  | [] => none

/-- Whether a name may begin with the character. -/
def startsName (c : Char) : Bool := isAlphabetic c || c = '_' || c = '$'

/-- Whether a name may go on with the character. -/
def continuesName (c : Char) : Bool := isAlphabetic c || isNumeric c || c = '_' || c = '$'

/-- How many characters the name at the start of a text takes. -/
def nameLength (cs : List Char) : Nat := 1 + (cs.tail.takeWhile continuesName).length

/-- Whether the text begins with a number: a digit, or a point and a digit. -/
def startsNumber : List Char → Bool
  | '.' :: c :: _ => c.isDigit
  | c :: _ => c.isDigit
  | [] => false

/-- How many digits a text begins with. -/
def digitCount (cs : List Char) : Nat := (cs.takeWhile Char.isDigit).length

/-- How many characters the exponent at the start of a text takes; without digits there is no exponent. -/
def exponentLength : List Char → Nat
  | c :: cs =>
    if c = 'e' ∨ c = 'E' then
      let sign := match cs with
        | s :: _ => if s = '+' ∨ s = '-' then 1 else 0
        | [] => 0
      let digits := digitCount (cs.drop sign)
      if digits = 0 then 0 else 1 + sign + digits
    else 0
  | [] => 0

/-- How many characters a decimal number takes. -/
def decimalLength (cs : List Char) : Nat :=
  let whole := digitCount cs
  let mantissa := match cs.drop whole with
    | '.' :: more => whole + 1 + digitCount more
    | _ => whole
  mantissa + exponentLength (cs.drop mantissa)

/-- How many characters the number at the start of a text takes. -/
def numberLength (cs : List Char) : Nat :=
  let hexLength (digits : List Char) : Nat := (digits.takeWhile fun c => (hexDigit? c).isSome).length
  match cs with
  | '0' :: x :: digits =>
    if (x = 'x' ∨ x = 'X') ∧ hexLength digits ≠ 0 then 2 + hexLength digits else decimalLength cs
  | _ => decimalLength cs

/-- Where the reading of a string stands: between characters, after a backslash, or inside a numbered escape with its
code and digits so far. -/
inductive StringMode where
  | plain
  | escape
  | code (value digits : Nat)

/-- What a character does to a string being read: end it, break it off, or lead on. The content is held in reverse. -/
inductive StringStep where
  | closed (content : List Char)
  | broken
  | next (mode : StringMode) (content : List Char)

/-- The character of a code; codes that are no character give the replacement character. -/
def charOfCode (n : Nat) : Char := if n.isValidChar then Char.ofNat n else '\uFFFD'

/-- A character that no escape precedes. -/
def plainStep (quote : Char) (content : List Char) (c : Char) : StringStep :=
  if c = quote then .closed content
  else if c = '\\' then .next .escape content
  else if c = '\n' then .broken
  else .next .plain (c :: content)

/-- The character after a backslash. -/
def escapeStep (content : List Char) (c : Char) : StringStep :=
  if c = 'u' then .next (.code 0 0) content
  else if c = '\n' then .next .plain content
  else
    let meant :=
      if c = 'n' then '\n' else if c = 't' then '\t' else if c = 'r' then '\r' else if c = '0' then '\x00'
      else if c = 'b' then '\x08' else if c = 'f' then '\x0c' else if c = 'v' then '\x0b' else c
    .next .plain (meant :: content)

/-- The character after up to four digits of a numbered escape. -/
def codeStep (quote : Char) (value digits : Nat) (content : List Char) (c : Char) : StringStep :=
  match (if digits < 4 then hexDigit? c else none) with
  | some d => .next (.code (value * 16 + d) (digits + 1)) content
  | none => plainStep quote (charOfCode value :: content) c

/-- The rest of a string after its opening quote: its content, in reverse, and how many characters it takes with the
closing quote. -/
def stringRest (quote : Char) : StringMode → List Char → List Char → Option (List Char × Nat)
  | _, _, [] => none
  | mode, content, c :: cs =>
    let step := match mode with
      | .plain => plainStep quote content c
      | .escape => escapeStep content c
      | .code value digits => codeStep quote value digits content c
    match step with
    | .closed content => some (content, 1)
    | .broken => none
    | .next mode content => (stringRest quote mode content cs).map fun (all, n) => (all, n + 1)

/-- The content of the string at the start of a text, and how many characters it takes with both quotes. -/
def string? (cs : List Char) : Option (String × Nat) :=
  match cs with
  | [] => none
  | quote :: rest => (stringRest quote .plain [] rest).map fun (content, n) =>
    (String.ofList content.reverse, n + 1)

end Hygiene.Lexeme
