import Hygiene.Expand.Instance
import Hygiene.Expand.Statement

/-!
# Reading of module items

Imports, exports and statements. An import is carried out as soon as it is read, so its transformers can be used in
everything after it.
-/

namespace Hygiene

namespace Parse

/-- The one or two names of a specifier: `a`, or `a as b`. -/
def aliasedNames (what : String) (tokens : List Token) : Expand (Option Token × Token) :=
  let malformed := Expand.fail (.parse (.malformed what (Tree.textAll tokens))) (Token.cover tokens)
  match tokens with
  | [name] => if name.isIdent then return (none, name) else malformed
  | [first, keyword, second] =>
    if keyword.isWord "as" && first.isIdent && second.isIdent then return (some first, second) else malformed
  | _ => malformed

/-- Reads the specifiers of an import. -/
def importSpecifiers (parts : List (List Token)) : Expand (List ImportSpecifier) :=
  parts.mapM fun part => do
    let (source, binding) ← aliasedNames "import specifier" part
    return { source, binding, site := Token.cover part }

/-- Reads the specifiers of an export list. -/
def exportSpecifiers (parts : List (List Token)) : Expand (List ExportSpecifier) :=
  parts.mapM fun part => do
    match ← aliasedNames "export specifier" part with
    | (some inner, outer) => return { inner, outer := some outer, site := Token.cover part }
    | (none, inner) => return { inner, outer := none, site := Token.cover part }

/-- Reads the name that an import gives to the default export. -/
def defaultImport : Parse (Option Token) := do
  if (← peekIs (·.isIdent)) && !(← peekIs (·.isWord "from")) then
    let binding ← expectIdent "a binding name"
    discard (eat ",")
    return some binding
  else
    return none

/-- Reads the specifier of a module. -/
def moduleSpecifier : Parse String := do
  match ← peek with
  | some (.atom _ (.str text)) => advance; return text
  | _ => unexpected "a module specifier string"

/-- Passes over the words that ask for compile-time use; answers whether they were there. -/
def forSyntax : Parse Bool := do
  if (← peekIs (·.isWord "for")) && (← peekNthIs 1 (·.isWord "syntax")) then
    advance
    advance
    return true
  else
    return false

/-- Reads an import. -/
def importDeclaration : Parse Import := do
  let start ← next "`import`"
  let defaultBinding ← defaultImport
  let named ←
    if ← peekGroup .brace then
      let (tokens, _) ← expectGroup .brace "`\x7b`"
      (importSpecifiers (Token.splitCommas tokens) : Expand (List ImportSpecifier))
    else
      pure []
  if ← peekIs (·.isWord "from") then advance else unexpected "`from`"
  let specifier ← moduleSpecifier
  let forSyntax ← forSyntax
  optionalSemicolon
  return { defaultBinding, named, specifier, forSyntax, site := start.site.cover (← previousSite) }

/-- Reads what an export declares. -/
def exportDeclaration (s : Setup) (home : Home) (p : Passes) : Parse ExportDeclaration := do
  if ← peekIs (·.isWord "function") then return .function (← function true)
  else if let some kind ← declarationKeyword home then
    let d ← declaration s home p kind
    optionalSemicolon
    return .declaration d
  else if ← peekIs (·.isWord "default") then
    let binding ← next "`default`"
    let value ← p.assignment
    optionalSemicolon
    Expand.bindVariable binding
    return .defaultValue binding value
  else
    unexpected "a declaration, `default` or `\x7b` after `export`"

/-- Reads an export. -/
def exportItem (s : Setup) (home : Home) (p : Passes) : Parse ModuleItem := do
  let start ← next "`export`"
  if ← peekGroup .brace then
    let (tokens, _) ← expectGroup .brace "`\x7b`"
    let specifiers ← (exportSpecifiers (Token.splitCommas tokens) : Expand (List ExportSpecifier))
    optionalSemicolon
    return .exportList specifiers (start.site.cover (← previousSite))
  else
    let exported ← exportDeclaration s home p
    return .exportItem exported (start.site.cover (← previousSite))

end Parse

/-- What an import asks for: the exported name, the identifier that it binds, and the site of both. -/
def Import.wanted (i : Import) : List (String × Token × Site) :=
  i.defaultBinding.toList.map (fun binding => ("default", binding, binding.site)) ++
    i.named.map fun specifier => (specifier.exportName, specifier.binding, specifier.site)

namespace Expand

/-- Binds one imported name. A transformer keeps its meaning. A runtime export is bound for runtime, or to its value
when it is imported for compile-time code. -/
def bindImport (s : Setup) (record : ModuleRecord) (imported : Import) (wanted : String × Token × Site) :
    Expand Unit := do
  let (name, binding, site) := wanted
  match record.export? name with
  | none => fail (.missingExport imported.specifier name) site
  | some (exported, true) =>
    let id ← bind binding .transformer false
    match (← get).registry.transformer? exported with
    | some t => modify fun run => { run with registry := run.registry.define id t }
    | none => pure ()
  | some (_, false) =>
    if imported.forSyntax then
      let values ← instantiate s .compileTime (← get).modules.length record
      let id ← bind binding (.compileTimeImport imported.specifier name) false
      let value := (Assoc.get? name values).getD .undefined
      modify fun run => { run with registry := run.registry.defineValue id value }
    else
      discard (bind binding (.runtimeImport imported.specifier name) false)

/-- Takes down that an import begins. -/
def request (specifier : String) : Expand Unit :=
  modify fun run => { run with requests := ⟨run.loading, specifier⟩ :: run.requests }

/-- Carries out an import: loads the module and binds its names. -/
def processImport (s : Setup) (p : Passes) (imported : Import) : Expand Unit := do
  request imported.specifier
  let record ← p.load imported.specifier imported.site
  imported.wanted.forM (bindImport s record imported)

end Expand

namespace Parse

/-- Reads an item of a module; none when a transformer was invoked or nothing is left. -/
def moduleItem (s : Setup) (home : Home) (p : Passes) : Parse (Option ModuleItem) := do
  if ← invokeHere s then return none
  else if ← peekIs (·.isWord "import") then
    let imported ← importDeclaration
    Expand.processImport s p imported
    return some (.importItem imported)
  else if ← peekIs (·.isWord "export") then some <$> exportItem s home p
  else return (← p.statement).map .statement

/-- Reads the items of a module up to the end. -/
def moduleItems (s : Setup) (home : Home) (p : Passes) : Nat → Parse (List ModuleItem)
  | 0 => (Expand.exhausted : Expand (List ModuleItem))
  | limit + 1 => do
    if ← atEnd then return []
    else
      match ← moduleItem s home p with
      | some item => return item :: (← moduleItems s home p limit)
      | none => moduleItems s home p limit

end Parse

/-- Expands the tokens of a module: reads its items, then completes them. -/
def Expand.moduleItems (s : Setup) (home : Home) (p : Passes) (tokens : List Token) : Expand (List ModuleItem) := do
  let (items, _) ← Parse.on tokens (Parse.moduleItems s home p p.limit)
  items.mapM (·.complete p.body)

end Hygiene
