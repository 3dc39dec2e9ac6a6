import Hygiene.Expand.Completion
import Hygiene.Expand.Expression
import Hygiene.Term.References

/-!
# Reading of statements

A declaration binds its names as soon as they are read. The initializer of a transformer is expanded and evaluated at
once, so the transformer can be used in everything after it.
-/

namespace Hygiene

namespace Expand

/-- Why compile-time code may not name an identifier: it is bound at runtime and older than the code, or neither bound
nor known everywhere. `mark` is the number of bindings there were before the code. -/
def referenceFault? (store : Store) (mark : Nat) (ident : Token) : Option DeclarationFault :=
  match store.resolveIdent ident with
  | some b => if b.kind.isRuntime && !Store.isNewer b.id mark then some (.runtimeReference ident.name) else none
  | none => if (globalValue? ident.name).isSome then none else some (.undefinedReference ident.name)

/-- Ends when compile-time code names what does not exist at compile time. -/
def checkReferences (name : String) (mark : Nat) : List Token → Expand Unit
  | [] => pure ()
  | ident :: rest => do
    match referenceFault? (← get).store mark ident with
    | some fault => fail (.declaration name fault) ident.site
    | none => checkReferences name mark rest

/-- Accepts the initializer of a transformer if it names only what exists at compile time. -/
def acceptInitializer (binding : Token) (mark : Nat) (init : Expression) : Expand Unit := do
  checkReferences binding.name mark init.references
  record (.accepted binding mark init)

/-- The value of a transformer's initializer, which must be callable. -/
def transformerValue (s : Setup) (name : String) (site : Site) (init : Expression) : Expand Value := do
  record (.ran [.expression init init.site])
  match ← evaluate s (← newEnvironment) init.site fun _ r => r.expression init with
  | .error signal => fail (.declaration name (.evaluation signal)) site
  | .ok value =>
    if value.isCallable then return value
    else fail (.declaration name (.notATransformer value.typeName)) site

/-- Binds the name of a transformer whose output cannot name it; answers the binding and its output scope. -/
def bindHidden (binding : Token) : Expand (BindingId × ScopeId) := do
  let id ← bind binding .transformer true
  let scope ← freshScope (.hidden id)
  modify fun run => { run with store := run.store.hide id scope }
  return (id, scope)

/-- Makes a binding mean a transformer. -/
def defineTransformer (id : BindingId) (t : Transformer) : Expand Unit :=
  modify fun run => { run with registry := run.registry.define id t }

end Expand

namespace Parse

/-- The keyword of a declaration at the place, when a name follows it. -/
def declarationKeyword (home : Home) : Parse (Option DeclarationKind) := do
  match (← peek).bind fun token => token.ident?.bind DeclarationKind.ofKeyword? with
  | none => return none
  | some kind =>
    if kind.declaresTransformers && home.dialect != .sweet then return none
    else if ← peekNthIs 1 (·.isIdent) then return some kind
    else return none

/-- Reads the initializer of a transformer, completes it, and makes its value the meaning of the name, which a recursive
one has bound before. -/
def transformerDeclarator (s : Setup) (home : Home) (p : Passes) (kind : DeclarationKind) (binding : Token) :
    Parse Declarator := do
  let name := binding.name
  let site := binding.site
  Expand.record (.declaring binding)
  let mark := (← run).store.count
  let early ← if kind = .syntaxRecDecl then some <$> Expand.bind binding .transformer true else pure none
  expectPunct "="
  let init ← p.assignment
  let init ← (init.complete p.body : Expand Expression)
  Expand.acceptInitializer binding mark init
  let value ← Expand.transformerValue s name site init
  let (id, outputScope) ← match early with
    | some id => pure (id, none)
    | none => do
      let (id, scope) ← Expand.bindHidden binding
      pure (id, some scope)
  Expand.defineTransformer id { name, value, module := home.specifier, site, outputScope }
  return { binding, init := some init, site := site.cover (← previousSite) }

/-- Reads the optional initializer of a variable, which is bound first. -/
def variableDeclarator (p : Passes) (binding : Token) : Parse Declarator := do
  Expand.bindVariable binding
  let init ← if ← eat "=" then some <$> p.assignment else pure none
  return { binding, init, site := binding.site.cover (← previousSite) }

/-- Reads declared names with commas between them. -/
def declarators (s : Setup) (home : Home) (p : Passes) (kind : DeclarationKind) : Nat → Parse (List Declarator)
  | 0 => (Expand.exhausted : Expand (List Declarator))
  | limit + 1 => do
    let binding ← expectIdent "a binding name"
    let first ←
      if kind.declaresTransformers then transformerDeclarator s home p kind binding
      else variableDeclarator p binding
    if ← eat "," then return first :: (← declarators s home p kind limit) else return [first]

/-- Reads a declaration. -/
def declaration (s : Setup) (home : Home) (p : Passes) (kind : DeclarationKind) : Parse Declaration := do
  let start ← next "a declaration keyword"
  let list ← declarators s home p kind p.limit
  return { kind, declarators := list, site := start.site.cover (← previousSite) }

/-- Reads statements up to the end. -/
def statements (p : Passes) : Nat → Parse (List Statement)
  | 0 => (Expand.exhausted : Expand (List Statement))
  | limit + 1 => do
    if ← atEnd then return []
    else
      match ← p.statement with
      | some statement => return statement :: (← statements p limit)
      | none => statements p limit

/-- Reads the statements of a block, which has a scope of its own. -/
def block (p : Passes) (tokens : List Token) : Expand (List Statement) := do
  let scope ← Expand.freshScope .opened
  return (← on (← Expand.enclose scope tokens) (statements p p.limit)).1

/-- Reads a statement where one is needed; at the end of the tokens it is the empty one. -/
def requiredStatement (p : Passes) : Parse Statement := do
  match ← p.statement with
  | some statement => return statement
  | none => return .empty (← previousSite)

/-- Reads the test of a branch or a loop. -/
def test (p : Passes) : Parse Expression := do
  let (tokens, site) ← expectGroup .paren "`(`"
  Expand.groupExpression p tokens site

/-- Reads the branches after a test. -/
def branch (p : Passes) (start : Site) : Parse Statement := do
  advance
  let test ← test p
  let consequent ← requiredStatement p
  let alternate ←
    if ← peekIs (·.isWord "else") then
      advance
      some <$> requiredStatement p
    else
      pure none
  return .branch test consequent alternate (start.cover (← previousSite))

/-- Reads a loop. -/
def loop (p : Passes) (start : Site) : Parse Statement := do
  advance
  let test ← test p
  let body ← requiredStatement p
  return .loop test body (start.cover (← previousSite))

/-- The site from a start to the last token read, after an optional semicolon. -/
def endStatement (start : Site) : Parse Site := do
  optionalSemicolon
  return start.cover (← previousSite)

/-- Reads the optional value of a return statement. -/
def returnValue (p : Passes) : Parse (Option Expression) := do
  if (← atEnd) || (← peekIs (·.isPunct ";")) then return none else some <$> p.assignment

/-- Reads the statement that begins with the given token, which refers to no transformer. -/
def statementAt (s : Setup) (home : Home) (p : Passes) (token : Token) : Parse Statement := do
  let start := token.site
  if let some kind ← declarationKeyword home then
    let d ← declaration s home p kind
    return .declaration d (← endStatement start)
  else if token.isWord "function" && (← peekNthIs 1 (·.isIdent)) then
    let fn ← function true
    return .function fn (start.cover (← previousSite))
  else if token.isWord "return" then
    advance
    let value ← returnValue p
    return .return value (← endStatement start)
  else if token.isWord "if" then branch p start
  else if token.isWord "while" then loop p start
  else if token.isWord "throw" then
    advance
    let value ← p.assignment
    return .throw value (← endStatement start)
  else if let some tokens := token.group? .brace then
    advance
    return .block (← block p tokens) start
  else if token.isPunct ";" then
    advance
    return .empty start
  else
    let value ← p.assignment
    return .expression value (← endStatement start)

/-- Reads a statement, after invoking the transformers that stand at the place; none when they leave nothing. -/
def statementStep (s : Setup) (home : Home) (p : Passes) : Parse (Option Statement) := do
  invokeAll s p.limit
  match ← peek with
  | none => return none
  | some token => some <$> statementAt s home p token

end Parse

/-- Expands the tokens of a function body: reads its statements, then completes them. -/
def Expand.body (p : Passes) (tokens : List Token) : Expand (List Statement) := do
  let (list, _) ← Parse.on tokens (Parse.statements p p.limit)
  Statement.completeAll p.body list

end Hygiene
