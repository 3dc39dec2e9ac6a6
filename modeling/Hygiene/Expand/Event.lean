import Hygiene.Scope.Registry

/-!
# The events of a run

What a run does to scopes, tokens and bindings, in order: every scope that is made, every token that takes on or loses
one, every binding, every call of a transformer, the code that is accepted and run, and the identifiers that are read.
-/

namespace Hygiene

/-- A place in a sequence of tokens. -/
structure Stream where
  /-- The tokens before the place, the last one first. -/
  before : List Token := []
  /-- The tokens from the place on. -/
  after : List Token

/-- A call of a transformer. -/
structure Call where
  /-- The scope that was made for the invocation. -/
  scope : ScopeId
  transformer : Transformer
  /-- The stream at whose place the name of the transformer stands. -/
  stream : Stream
  /-- How many transformers had been invoked before. -/
  earlier : Nat

/-- The tokens after the name of the transformer. -/
def Call.rest (c : Call) : List Token := c.stream.after.drop 1

/-- An invocation: a call, and what became of it. -/
structure Invocation where
  call : Call
  /-- The tokens that the transformer gave. -/
  output : List Token
  /-- How many of the tokens after its name the transformer took. -/
  taken : Nat
  /-- The stream with the output in place. -/
  result : Stream

/-- Something that a run did. -/
inductive Event where
  /-- A scope was made for a region: a block, a function or an arrow. -/
  | opened (scope : ScopeId)
  /-- A scope was made for a module and given to the tokens of its text. -/
  | text (file : Nat) (tokens : List Token) (scope : ScopeId)
  /-- Tokens were given the scope of their region. -/
  | enclosed (scope : ScopeId) (tokens : List Token)
  /-- The tokens behind a region lost its scope again. -/
  | left (scope : ScopeId) (tokens : List Token)
  /-- A binding was made. -/
  | bound (binding : Binding)
  /-- A scope was made from which a binding is hidden. -/
  | hidden (id : BindingId) (scope : ScopeId)
  /-- A transformer was called. -/
  | called (call : Call)
  /-- The output of a transformer was put in place. -/
  | invoked (invocation : Invocation)
  /-- The declaration of a transformer began. -/
  | declaring (binding : Token)
  /-- The initializer of a declared transformer was found to name only what exists at compile time. There were `mark`
  bindings when its declaration began. -/
  | accepted (binding : Token) (mark : Nat) (init : Expression)
  /-- Code was run. -/
  | ran (code : List Statement)
  /-- An identifier was read as an expression. -/
  | read (ident : Token)
  /-- An identifier was read as a property together with its value. -/
  | shorthand (ident : Token)

end Hygiene
