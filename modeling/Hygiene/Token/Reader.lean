import Hygiene.Token.Lexeme
import Hygiene.Token.ReadError
import Hygiene.Token.Tree

/-!
# Reading

A text is read in one walk over its characters. Where no lexeme is under way, the one that begins there is recognised;
the walk then passes over it. Delimiters, backticks and unquotes open and close nests, which are kept on a stack. Inside
a template, and inside groups of one, `$` before a brace opens an unquote; a backtick closes the template it stands
directly in and opens a new one anywhere else.
-/

namespace Hygiene

/-- A nest that has been opened: where, and whether an unquote may stand directly inside it. -/
structure OpenNest where
  shape : Nest
  start : Nat
  inTemplate : Bool
  /-- The tokens before the nest in the one around it, in reverse. -/
  before : List (Tree Span)

/-- The tokens read so far: those of the innermost open nest, in reverse, and the nests that are open around them,
innermost first. -/
structure ReaderState where
  current : List (Tree Span) := []
  openNests : List OpenNest := []

namespace ReaderState

/-- Whether an unquote may stand here. -/
def inTemplate (s : ReaderState) : Bool :=
  match s.openNests with
  | [] => false
  | nest :: _ => nest.inTemplate

/-- The shape of the innermost open nest. -/
def shape? (s : ReaderState) : Option Nest := s.openNests.head?.map (·.shape)

/-- The character that closes the innermost open nest. -/
def closer? (s : ReaderState) : Option Char :=
  s.shape?.map fun
    | .group d => d.closer
    | .template => '`'
    | .unquote => '\x7d'

/-- Adds a finished token. -/
def push (s : ReaderState) (tree : Tree Span) : ReaderState := { s with current := tree :: s.current }

/-- Opens a nest at an offset. -/
def openNest (s : ReaderState) (shape : Nest) (start : Nat) : ReaderState :=
  let inTemplate := match shape with
    | .group _ => s.inTemplate
    | .template => true
    | .unquote => false
  { current := [], openNests := { shape, start, inTemplate, before := s.current } :: s.openNests }

/-- Closes the innermost nest at the offset after its closing delimiter. -/
def closeNest (s : ReaderState) (stop : Nat) : ReaderState :=
  match s.openNests with
  | [] => s
  | nest :: rest =>
    { current := .nest ⟨nest.start, stop⟩ nest.shape s.current.reverse :: nest.before, openNests := rest }

/-- The tokens of the whole text, once it has ended. -/
def finish (s : ReaderState) (offset : Nat) : Except ReadError (List (Tree Span)) :=
  match s.openNests with
  | [] => .ok s.current.reverse
  | nest :: _ => match nest.shape with
    | .group d => .error ⟨.unclosed d.opener, ⟨nest.start, nest.start + 1⟩⟩
    | .template | .unquote => .error ⟨.unterminatedTemplate, ⟨nest.start, offset⟩⟩

end ReaderState

namespace Reader

/-- Adds the atom that takes the first `n` characters. -/
def pushAtom (s : ReaderState) (offset : Nat) (cs : List Char) (n : Nat) (atom : Atom) : ReaderState × Nat :=
  (s.push (.atom ⟨offset, offset + byteLength (cs.take n)⟩ atom), n)

/-- Reads a closing delimiter. -/
def close (s : ReaderState) (offset : Nat) (c : Char) : Except ReadError (ReaderState × Nat) :=
  let closes : Bool := match s.shape? with
    | some (.group d) => d.closer = c
    | some .unquote => c = '\x7d'
    | _ => false
  if closes then .ok (s.closeNest (offset + 1), 1)
  else .error ⟨.unbalanced c s.closer?, ⟨offset, offset + 1⟩⟩

/-- Reads a string. -/
def string (s : ReaderState) (offset : Nat) (cs : List Char) : Except ReadError (ReaderState × Nat) :=
  match Lexeme.string? cs with
  | some (content, n) => .ok (pushAtom s offset cs n (.str content))
  | none => .error ⟨.unterminatedString, ⟨offset, offset + byteLength (cs.takeWhile (· ≠ '\n'))⟩⟩

/-- Reads a number. -/
def number (s : ReaderState) (offset : Nat) (cs : List Char) : Except ReadError (ReaderState × Nat) :=
  let n := Lexeme.numberLength cs
  let raw := cs.take n
  match Number.readLiteral? raw with
  | some value => .ok (pushAtom s offset cs n (.number value (String.ofList raw)))
  | none => .error ⟨.invalidNumber (String.ofList raw), ⟨offset, offset + byteLength raw⟩⟩

/-- Reads the token that begins with the character `c`, which is no trivia. -/
def token (s : ReaderState) (offset : Nat) (c : Char) (rest : List Char) : Except ReadError (ReaderState × Nat) :=
  let cs := c :: rest
  if c = ')' ∨ c = ']' ∨ c = '\x7d' then close s offset c
  else match Delimiter.ofOpener? c with
  | some d => .ok (s.openNest (.group d) offset, 1)
  | none =>
    if c = '`' then
      if s.shape? = some .template then .ok (s.closeNest (offset + 1), 1)
      else .ok (s.openNest .template offset, 1)
    else if c = '$' ∧ s.inTemplate ∧ rest.head? = some '\x7b' then .ok (s.openNest .unquote offset, 2)
    else if c = '"' ∨ c = '\'' then string s offset cs
    else if Lexeme.startsNumber cs then number s offset cs
    else if Lexeme.startsName c then
      let n := Lexeme.nameLength cs
      .ok (pushAtom s offset cs n (.ident (String.ofList (cs.take n))))
    else match Lexeme.punctuator? cs with
      | some p => .ok (pushAtom s offset cs p.length (.punct p))
      | none => .error ⟨.unexpected c, ⟨offset, offset + c.utf8Size⟩⟩

/-- Reads what begins with the character `c`: trivia leave the tokens as they are. -/
def step (s : ReaderState) (offset : Nat) (c : Char) (rest : List Char) : Except ReadError (ReaderState × Nat) :=
  match Lexeme.triviaLength? (c :: rest) with
  | some n => .ok (s, n)
  | none =>
    if c = '/' ∧ rest.head? = some '*' then
      .error ⟨.unterminatedComment, ⟨offset, offset + byteLength (c :: rest)⟩⟩
    else token s offset c rest

/-- Walks over the characters from `offset` on; the first `pending` of them belong to a lexeme already read. -/
def walk : Nat → Nat → ReaderState → List Char → Except ReadError (List (Tree Span))
  | _, offset, s, [] => s.finish offset
  | pending + 1, offset, s, c :: cs => walk pending (offset + c.utf8Size) s cs
  | 0, offset, s, c :: cs =>
    match step s offset c cs with
    | .error e => .error e
    | .ok (s, n) => walk (n - 1) (offset + c.utf8Size) s cs

end Reader

/-- The tokens of a text. -/
def read (text : String) : Except ReadError (List (Tree Span)) := Reader.walk 0 0 {} text.toList

end Hygiene
