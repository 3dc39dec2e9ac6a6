import Hygiene.Expand.Stream

/-!
# Invocation of transformers

An identifier that refers to a transformer is replaced, with the tokens that the transformer takes, by those that it
gives. Each invocation has a scope, which is flipped on the tokens that go in and on those that come out. So tokens from
the place of use come back without it, while introduced tokens carry it and neither bind nor capture names from the
place of use.
-/

namespace Hygiene

/-- The tokens of the items of an array, each of which is syntax. -/
def itemTokens : List Value → Except InvocationFault (List Token)
  | [] => .ok []
  | .fragment tokens :: rest => do return tokens ++ (← itemTokens rest)
  | value :: _ => .error (.wrongItem value.typeName)

/-- The tokens that the result of a transformer stands for. -/
def outputTokens : Value → Except InvocationFault (List Token)
  | .fragment tokens => .ok tokens
  | .undefined => .ok []
  | .array items => itemTokens items
  | value => .error (.wrongResult value.typeName)

/-- The output of an invocation as it is put into the stream: with its scope flipped, and with the output scope of the
transformer on what it introduces. -/
def markOutput (scope : ScopeId) (outputScope : Option ScopeId) (output : List Token) : List Token :=
  let flipped := Token.flip scope output
  match outputScope with
  | some hidden => flipped.map (Token.addScopeWhere scope hidden)
  | none => flipped

/-- Adds a cursor to the heap. -/
def Expand.addCursor (cursor : Cursor) : Expand CursorId :=
  modifyGet fun run => let (id, heap) := run.heap.addCursor cursor; (id, { run with heap })

/-- Ends when the transformers allowed have all been invoked. -/
def Expand.checkBudget (s : Setup) (site : Site) : Expand Unit := do
  match s.config.maxExpansions with
  | some limit => if limit ≤ (← get).expansions then Expand.fail (.expansionLimit limit) site else pure ()
  | none => pure ()

/-- Calls a transformer on the tokens after its name. Answers its output and how many tokens it took. -/
def Expand.callTransformer (s : Setup) (t : Transformer) (name : Token) (rest : List Token) :
    Expand (List Token × Nat) := do
  let cursor ← addCursor { name, tokens := rest }
  let env ← newEnvironment
  match ← evaluate s env name.site fun w r => r.call w t.value [.context cursor name] name.site with
  | .error signal => fail (.invocation t.name (.evaluation signal)) name.site
  | .ok value => match outputTokens value with
    | .error fault => fail (.invocation t.name fault) name.site
    | .ok output => return (output, (((← get).heap.cursors[cursor]?).map (·.taken)).getD 0)

/-- Counts and records an invocation. -/
def Expand.recordOrigin (t : Transformer) (site : Site) : Expand Unit :=
  modify fun run =>
    let origin : Origin :=
      { name := t.name, callSite := run.sources.locateSite site, definitionSite := run.sources.locateSite t.site }
    { run with expansions := run.expansions + 1, origins := origin :: run.origins }

namespace Parse

/-- Invokes the transformer whose name is the token at the place. -/
def invoke (s : Setup) (name : Token) (t : Transformer) : Parse Unit := do
  Expand.checkBudget s name.site
  let stream ← get
  let earlier := (← run).expansions
  let scope ← Expand.freshScope fun scope => .called { scope, transformer := t, stream, earlier }
  let call : Call := { scope, transformer := t, stream, earlier }
  let (output, taken) ← Expand.callTransformer s t name (Token.flip scope call.rest)
  let result : Stream := { stream with after := markOutput scope t.outputScope output ++ call.rest.drop taken }
  set result
  Expand.record (.invoked { call, output, taken, result })
  Expand.recordOrigin t name.site

/-- Invokes the transformer that the token at the place refers to, if it refers to one; answers whether it did. -/
def invokeHere (s : Setup) : Parse Bool := do
  match ← peek with
  | none => return false
  | some token =>
    let run ← run
    match run.registry.lookup run.store token with
    | none => return false
    | some t =>
      invoke s token t
      return true

/-- Invokes transformers as long as the token at the place refers to one. -/
def invokeAll (s : Setup) : Nat → Parse Unit
  | 0 => (Expand.exhausted : Expand Unit)
  | limit + 1 => do if ← invokeHere s then invokeAll s limit else pure ()

end Parse

end Hygiene
