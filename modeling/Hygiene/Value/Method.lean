import Hygiene.Source.Text
import Hygiene.Text.Case
import Hygiene.Value.Equality
import Hygiene.Value.Member

/-!
# Methods of texts, arrays and syntax

The methods that need nothing but their receiver and their arguments. Positions in a text count characters.
-/

namespace Hygiene.Value

/-- The place that a bound of a slice means: negative bounds count from the end, NaN is the start, and none goes past
the end. -/
def sliceBound (length : Nat) (bound : Option Value) (default : Nat) : Nat :=
  match bound.map toNumber with
  | none => default
  | some n =>
    if n.isNaN then 0
    else if n < 0 then length - Number.toNat64 (-n)
    else min (Number.toNat64 n) length

/-- The items between two bounds; the second one is at least the first. -/
def slice {α : Type} (items : List α) (args : List Value) : List α :=
  let start := sliceBound items.length args[0]? 0
  let stop := max start (sliceBound items.length args[1]? items.length)
  (items.take stop).drop start

/-- The text of the first argument, which is empty when there is none. -/
def firstText (args : List Value) : String := (args[0]?.map text).getD ""

/-- A text from its characters. -/
def ofChars (cs : List Char) : Value := str (String.ofList cs)

/-- The position of a text in another one, or -1. -/
def textIndexOf (s needle : String) : Value :=
  match Text.indexOf? needle.toList s.toList with
  | some place => ofCount place
  | none => number (-1)

/-- The parts of a text between the occurrences of a separator; the empty separator gives the characters. -/
def textSplit (s separator : String) : List Value :=
  if separator.isEmpty then s.toList.map fun c => str c.toString
  else (Text.splitOn separator.toList s.toList).map ofChars

/-- The methods of a text. -/
def textMethod (s method : String) (args : List Value) : Except Unsupported Value :=
  match method with
  | "charAt" =>
    let place := (args[0]?.map toNumber).getD 0
    .ok (str (((item? s.toList place).map Char.toString).getD ""))
  | "indexOf" => .ok (textIndexOf s (firstText args))
  | "slice" | "substring" => .ok (ofChars (slice s.toList args))
  | "split" => .ok (array (textSplit s (firstText args)))
  | "toUpperCase" => .ok (ofChars (Text.toUpper s.toList))
  | "toLowerCase" => .ok (ofChars (Text.toLower s.toList))
  | "trim" => .ok (ofChars (Text.trim s.toList))
  | "toString" => .ok (str s)
  | _ => .error (.stringMethod method)

/-- The items joined with a separator; undefined and null are empty. -/
def join (items : List Value) (separator : String) : String := separator.intercalate (itemTexts items)

/-- The items followed by the arguments, where an argument that is an array stands for its items. -/
def concat (items args : List Value) : List Value :=
  items ++ args.flatMap fun arg => match arg with
    | array more => more
    | other => [other]

/-- The methods of an array that call no function and leave it unchanged. -/
def arrayMethod (items : List Value) (method : String) (args : List Value) : Except Unsupported Value :=
  let needle := args[0]?.getD undefined
  match method with
  | "join" => .ok (str (join items ((args[0]?.bind str?).getD ",")))
  | "concat" => .ok (array (concat items args))
  | "indexOf" => .ok (((items.findIdx? (·.strictEq needle)).map ofCount).getD (number (-1)))
  | "includes" => .ok (bool (items.any (·.strictEq needle)))
  | "slice" => .ok (array (slice items args))
  | _ => .error (.arrayMethod method)

/-- The value of an atom: its number or its text. -/
def ofAtom : Atom → Value
  | .ident name => str name
  | .punct text => str text
  | .number value _ => number value
  | .str text => str text

/-- The line a token was written on, or 0. -/
def lineOf (sources : Sources) (token : Token) : Nat :=
  match token.site.file.bind sources.text? with
  | some text => (text.lineColumn token.site.span.start).1
  | none => 0

/-- The first token, when it is an atom. -/
def firstAtom? : List Token → Option Atom
  | .atom _ a :: _ => some a
  | _ => none

/-- The shape of the first token, when it has parts. -/
def firstNest? : List Token → Option Nest
  | .nest _ shape _ :: _ => some shape
  | _ => none

/-- The parts of the first token, when it is a group. -/
def firstGroup? : List Token → Option (List Token)
  | .nest _ (.group _) children :: _ => some children
  | _ => none

/-- The methods of syntax, which look at its first token. -/
def fragmentMethod (sources : Sources) (tokens : List Token) (method : String) : Except Fault Value :=
  let atom? := firstAtom? tokens
  let nest? := firstNest? tokens
  match method with
  | "val" => .ok ((atom?.map ofAtom).getD null)
  | "isIdentifier" => .ok (bool (atom? matches some (.ident _)))
  | "isNumericLiteral" => .ok (bool (atom? matches some (.number _ _)))
  | "isStringLiteral" => .ok (bool (atom? matches some (.str _)))
  | "isPunctuator" => .ok (bool (atom? matches some (.punct _)))
  | "isTemplate" => .ok (bool (nest? == some .template))
  | "isParens" => .ok (bool (nest? == some (.group .paren)))
  | "isBrackets" => .ok (bool (nest? == some (.group .bracket)))
  | "isBraces" => .ok (bool (nest? == some (.group .brace)))
  | "isDelimiter" => .ok (bool (nest? matches some (.group _)))
  | "inner" =>
    match firstGroup? tokens with
    | some children => .ok (array (children.map fun token => fragment [token]))
    | none => .error (.wrongType .innerOfNonDelimiter)
  | "lineNumber" => .ok (ofCount ((tokens.head?.map (lineOf sources)).getD 0))
  | "toString" => .ok (str (Tree.textAll tokens))
  | _ => .error (.unsupported (.syntaxMethod method))

end Hygiene.Value
