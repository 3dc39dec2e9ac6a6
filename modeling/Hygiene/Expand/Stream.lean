import Hygiene.Expand.Run

/-!
# Token streams

Terms are read from a stream: the tokens that were read and those to come. Invoking a transformer changes only the
latter.
-/

namespace Hygiene

/-- The stream one token further on. -/
def Stream.advance (s : Stream) : Stream :=
  match s.after with
  | token :: rest => { before := token :: s.before, after := rest }
  | [] => s

/-- Reading of terms. -/
abbrev Parse := StateT Stream Expand

namespace Parse

variable {α : Type}

/-- Reads from the given tokens; answers the result and the tokens that were not read. -/
def on (tokens : List Token) (p : Parse α) : Expand (α × Stream) := p { after := tokens }

/-- The run as it is. -/
def run : Parse Run := (get : Expand Run)

/-- The token at the place. -/
def peek : Parse (Option Token) := return (← get).after.head?

/-- The token some places further on. -/
def peekNth (n : Nat) : Parse (Option Token) := return (← get).after[n]?

/-- Whether all tokens have been read. -/
def atEnd : Parse Bool := return (← get).after.isEmpty

/-- Whether the token at the place satisfies a test. -/
def peekIs (test : Token → Bool) : Parse Bool := return (← peek).any test

/-- Whether the token some places further on satisfies a test. -/
def peekNthIs (n : Nat) (test : Token → Bool) : Parse Bool := return (← peekNth n).any test

/-- Passes over the token at the place. -/
def advance : Parse Unit := modify Stream.advance

/-- The site of the last token that was read. -/
def previousSite : Parse Site := return ((← get).before.head?.map Token.site).getD .unknown

/-- Ends with tokens that do not form a term. -/
def fail (fault : ParseFault) (site : Site) : Parse α := (Expand.fail (.parse fault) site : Expand α)

/-- Ends because the token at the place is not the expected one. -/
def unexpected (expected : String) : Parse α := do
  match ← peek with
  | some token => fail (.unexpected (some token.text) expected) token.site
  | none => fail (.unexpected none expected) (← previousSite)

/-- Reads a token. -/
def next (expected : String) : Parse Token := do
  match ← peek with
  | some token => advance; return token
  | none => unexpected expected

/-- Passes over a punctuator when it is there; answers whether it was. -/
def eat (p : String) : Parse Bool := do
  if ← peekIs (·.isPunct p) then
    advance
    return true
  else
    return false

/-- Passes over an optional semicolon. -/
def optionalSemicolon : Parse Unit := discard (eat ";")

/-- Reads a punctuator. -/
def expectPunct (p : String) : Parse Unit := do
  if ← eat p then return () else unexpected ("`" ++ p ++ "`")

/-- Reads an identifier. -/
def expectIdent (expected : String) : Parse Token := do
  if ← peekIs (·.isIdent) then next expected else unexpected expected

/-- Reads a group; answers its tokens and its site. -/
def expectGroup (delimiter : Delimiter) (expected : String) : Parse (List Token × Site) := do
  match ← peek with
  | some token => match token.group? delimiter with
    | some children => advance; return (children, token.site)
    | none => unexpected expected
  | none => unexpected expected

/-- Whether the token at the place is a group with these delimiters. -/
def peekGroup (delimiter : Delimiter) : Parse Bool := peekIs fun token => (token.group? delimiter).isSome

end Parse

end Hygiene
