import Hygiene.Eval.Error

/-!
# Templates

A template is read once: its tokens are kept with their scopes, and every unquote becomes an expression. Filling it
copies its tokens and puts those of each unquoted value in the place of its expression.
-/

namespace Hygiene

namespace Template

section Read

variable {m : Type → Type} [Monad m]

mutual

/-- Reads one token of a template. `expression` reads the tokens of an unquote that stands at the given site. -/
def readPart (expression : List Token → Site → m Expression) : Token → m TemplatePart
  | .atom mark a => pure (.token (.atom mark a))
  | .nest mark .template children => pure (.token (.nest mark .template children))
  | .nest mark .unquote children => return .unquote (← expression children mark.site)
  | .nest mark (.group delimiter) children => return .group delimiter mark (← readParts expression children)

/-- Reads the tokens of a template, from left to right. -/
def readParts (expression : List Token → Site → m Expression) : List Token → m (List TemplatePart)
  | [] => pure []
  | token :: tokens => do
    let part ← readPart expression token
    return part :: (← readParts expression tokens)

end

end Read

mutual

/-- The tokens that a value stands for at a site. Syntax is copied, arrays are flattened, and plain values become
literals without scopes. -/
def unquote (site : Site) : Value → Except TypeFault (List Token)
  | .fragment tokens => .ok tokens
  | .array items => unquoteAll site items
  | .number n =>
    if n.isFinite then
      let literal := Token.fresh (.number n.abs (Number.numberText n.abs)) site
      .ok (if n < 0 then [Token.fresh (.punct "-") site, literal] else [literal])
    else
      .error (.unquote (Value.number n).typeName)
  | .str s => .ok [Token.fresh (.str s) site]
  | .bool b => .ok [Token.fresh (.ident (Value.bool b).text) site]
  | .null => .ok [Token.fresh (.ident "null") site]
  | value => .error (.unquote value.typeName)

/-- The tokens that several values stand for, one after the other. -/
def unquoteAll (site : Site) : List Value → Except TypeFault (List Token)
  | [] => .ok []
  | value :: values => do
    let tokens ← unquote site value
    return tokens ++ (← unquoteAll site values)

end

section Fill

variable {m : Type → Type} [Monad m] [MonadExceptOf Signal m]

/-- The tokens for an unquoted value, or the signal that it stands for none. -/
def unquoted (site : Site) (value : Value) : m (List Token) :=
  match unquote site value with
  | .ok tokens => pure tokens
  | .error fault => throw (.typeFault fault site)

mutual

/-- The tokens of one part; `eval` gives the value of an unquote. -/
def fillPart (eval : Expression → m Value) : TemplatePart → m (List Token)
  | .token token => pure [token]
  | .group delimiter mark parts => return [.nest mark (.group delimiter) (← fill eval parts)]
  | .unquote value => do unquoted value.site (← eval value)

/-- The tokens of a filled template. Each unquote is evaluated once, from left to right. -/
def fill (eval : Expression → m Value) : List TemplatePart → m (List Token)
  | [] => pure []
  | part :: parts => do
    let tokens ← fillPart eval part
    return tokens ++ (← fill eval parts)

end

end Fill

end Template

end Hygiene
