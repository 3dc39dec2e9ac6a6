import Hygiene.Scope.Mark

/-!
# Dialects

A module is written in one of two dialects, which a pragma can name. Only one of them has declarations of transformers.
-/

namespace Hygiene

/-- The dialect of a module. -/
inductive Dialect where
  /-- Plain code: the keywords of transformers are ordinary names. -/
  | base
  /-- Code that can declare transformers. -/
  | sweet
deriving Repr, DecidableEq

namespace Dialect

/-- The dialect that a pragma names. -/
def ofPragma? (name : String) : Option Dialect :=
  if name = "sweet.js" ∨ name = "sweet" then some sweet
  else if name = "base" ∨ name = "js" then some base
  else none

/-- A dialect as it is shown. -/
def text : Dialect → String
  | base => "base"
  | sweet => "sweet.js"

end Dialect

/-- What is wrong with a pragma. -/
inductive PragmaFault where
  | unknownLanguage (name : String)
  | needsString
deriving Repr, DecidableEq

/-- The message for a pragma. -/
def PragmaFault.message : PragmaFault → String
  | unknownLanguage name => "unknown language '" ++ name ++ "' in #lang pragma"
  | needsString => "#lang must be followed by a string"

/-- The tokens without a semicolon at their start. -/
def dropSemicolon : List Token → List Token
  | token :: tokens => if token.isPunct ";" then tokens else token :: tokens
  | [] => []

/-- The dialect that a pragma at the start names, and the tokens after it. A fault is reported at the first token. -/
def splitPragma (tokens : List Token) : Except (PragmaFault × Site) (Option Dialect × List Token) :=
  match tokens with
  | hash :: lang :: rest =>
    if hash.isPunct "#" && lang.isWord "lang" then
      match rest with
      | .atom _ (.str name) :: rest => match Dialect.ofPragma? name with
        | some dialect => .ok (some dialect, dropSemicolon rest)
        | none => .error (.unknownLanguage name, hash.site)
      | _ => .error (.needsString, hash.site)
    else .ok (none, tokens)
  | _ => .ok (none, tokens)

end Hygiene
