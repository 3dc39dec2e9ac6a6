import Hygiene.Source.Span
import Hygiene.Text.Quoted

/-!
# Token trees

A token is an atom or a nest of tokens: a group between delimiters, a template between backticks, or an unquote inside a
template. Every token carries a note: the reader of texts notes spans, the expander notes sites and scopes.
-/

namespace Hygiene

/-- The pairs of delimiters. -/
inductive Delimiter where
  | paren
  | bracket
  | brace
deriving Repr, DecidableEq

namespace Delimiter

/-- The character that opens a group. -/
def opener : Delimiter → Char
  | paren => '('
  | bracket => '['
  | brace => '\x7b'

/-- The character that closes a group. -/
def closer : Delimiter → Char
  | paren => ')'
  | bracket => ']'
  | brace => '\x7d'

/-- The delimiters that a character opens. -/
def ofOpener? (c : Char) : Option Delimiter :=
  if c = '(' then some paren else if c = '[' then some bracket else if c = '\x7b' then some brace else none

end Delimiter

/-- A token without parts. Keywords are identifiers; a number keeps the text it was written as; the escapes of a string
have been resolved. -/
inductive Atom where
  | ident (name : String)
  | punct (text : String)
  | number (value : Float) (raw : String)
  | str (text : String)

/-- The kinds of tokens with parts. -/
inductive Nest where
  | group (delimiter : Delimiter)
  | template
  | unquote
deriving Repr, DecidableEq

/-- A token tree whose every token carries a note. -/
inductive Tree (α : Type) where
  | atom (note : α) (atom : Atom)
  | nest (note : α) (shape : Nest) (children : List (Tree α))

namespace Nest

/-- The text before the parts. -/
def openText : Nest → String
  | group d => d.opener.toString
  | template => "`"
  | unquote => "$\x7b"

/-- The text after the parts. -/
def closeText : Nest → String
  | group d => d.closer.toString
  | template => "`"
  | unquote => "\x7d"

end Nest

/-- An atom as it is written. -/
def Atom.text : Atom → String
  | ident name => name
  | punct text => text
  | number _ raw => raw
  | str text => Text.quoted text

namespace Tree

variable {α β : Type}

/-- The note of a token. -/
def note : Tree α → α
  | atom note _ => note
  | nest note _ _ => note

mutual

/-- The tree with every note changed. -/
def map (f : α → β) : Tree α → Tree β
  | atom note a => atom (f note) a
  | nest note shape children => nest (f note) shape (mapAll f children)

/-- The trees with every note changed. -/
def mapAll (f : α → β) : List (Tree α) → List (Tree β)
  | [] => []
  | tree :: trees => map f tree :: mapAll f trees

end

mutual

/-- A token as it is written: parts stand between their delimiters with a space between neighbours. -/
def text : Tree α → String
  | atom _ a => a.text
  | nest _ shape children => shape.openText ++ textAll children ++ shape.closeText

/-- The tokens as they are written, with a space between neighbours. -/
def textAll : List (Tree α) → String
  | [] => ""
  | [tree] => text tree
  | tree :: trees => text tree ++ " " ++ textAll trees

end

/-- The name of an identifier. -/
def ident? : Tree α → Option String
  | atom _ (.ident name) => some name
  | _ => none

/-- Whether the token is an identifier, whatever its name. -/
def isIdent (tree : Tree α) : Bool := tree.ident?.isSome

/-- The name of an identifier, and no text for another token. -/
def name (tree : Tree α) : String := tree.ident?.getD ""

/-- Whether the token is the identifier with this name. -/
def isWord (word : String) (tree : Tree α) : Bool := tree.ident? = some word

/-- Whether the token is this punctuator. -/
def isPunct (p : String) : Tree α → Bool
  | atom _ (.punct text) => text = p
  | _ => false

/-- The parts of a group with these delimiters. -/
def group? (delimiter : Delimiter) : Tree α → Option (List (Tree α))
  | nest _ (.group d) children => if d = delimiter then some children else none
  | _ => none

/-- The parts of a template. -/
def template? : Tree α → Option (List (Tree α))
  | nest _ .template children => some children
  | _ => none

end Tree

end Hygiene
