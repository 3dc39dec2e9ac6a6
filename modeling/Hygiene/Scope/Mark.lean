import Hygiene.Scope.Set
import Hygiene.Token.Tree

/-!
# Tokens with scopes

Every token is marked with its site and its scope set. Scopes are added, removed and flipped throughout a tree, so a
token has the scopes of all regions it has passed through.
-/

namespace Hygiene

/-- The mark of a token: where it was written and the scopes it has gathered. -/
structure Mark where
  site : Site
  scopes : ScopeSet
deriving DecidableEq

/-- A token of the expander. -/
abbrev Token := Tree Mark

namespace Mark

/-- The mark with its scope set changed. -/
def mapScopes (f : ScopeSet → ScopeSet) (m : Mark) : Mark := { m with scopes := f m.scopes }

end Mark

namespace Token

/-- The token that a text's tree stands for, in the text with the given number; it has no scopes yet. -/
def ofTree (file : Nat) (tree : Tree Span) : Token := tree.map fun span => ⟨⟨some file, span⟩, .empty⟩

/-- The tokens that a text's trees stand for. -/
def ofTrees (file : Nat) (trees : List (Tree Span)) : List Token := trees.map (ofTree file)

/-- Where a token was written. -/
def site (t : Token) : Site := t.note.site

/-- The scopes of a token. -/
def scopes (t : Token) : ScopeSet := t.note.scopes

/-- A token that was not written in any text. -/
def fresh (atom : Atom) (site : Site) : Token := .atom ⟨site, .empty⟩ atom

/-- The token with a scope added to it and to its parts. -/
def addScope (scope : ScopeId) (t : Token) : Token := t.map (Mark.mapScopes (·.insert scope))

/-- The token with a scope removed from it and from its parts. -/
def removeScope (scope : ScopeId) (t : Token) : Token := t.map (Mark.mapScopes (·.erase scope))

/-- The token with a scope flipped in it and in its parts. -/
def flipScope (scope : ScopeId) (t : Token) : Token := t.map (Mark.mapScopes (·.flip scope))

/-- The token with a scope added to those of it and of its parts that carry the marker. -/
def addScopeWhere (marker scope : ScopeId) (t : Token) : Token :=
  t.map (Mark.mapScopes fun s => if s.contains marker then s.insert scope else s)

/-- A scope added throughout. -/
def wrap (scope : ScopeId) (tokens : List Token) : List Token := tokens.map (addScope scope)

/-- A scope flipped throughout. -/
def flip (scope : ScopeId) (tokens : List Token) : List Token := tokens.map (flipScope scope)

/-- A scope removed throughout. -/
def strip (scope : ScopeId) (tokens : List Token) : List Token := tokens.map (removeScope scope)

/-- The tokens with `count` of them from `start` on replaced. -/
def splice (tokens : List Token) (start count : Nat) (replacement : List Token) : List Token :=
  tokens.take start ++ replacement ++ tokens.drop (start + count)

/-- The smallest site that covers the tokens. -/
def cover (tokens : List Token) : Site :=
  match tokens.head?, tokens.getLast? with
  | some first, some last => first.site.cover last.site
  | _, _ => .unknown

/-- The runs of tokens between commas, without the empty ones. -/
def splitCommas : List Token → List (List Token)
  | tokens => (go [] tokens).filter (!·.isEmpty)
where
  /-- The runs, given the one under way in reverse. -/
  go (run : List Token) : List Token → List (List Token)
    | [] => [run.reverse]
    | t :: ts => if t.isPunct "," then run.reverse :: go [] ts else go (t :: run) ts

end Token

end Hygiene
