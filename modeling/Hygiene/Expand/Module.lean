import Hygiene.Expand.Item
import Hygiene.Token.Reader

/-!
# Loading and expansion of modules

A module is read, marked with a scope of its own, and expanded once; its record is kept. A module that is needed while
it is being expanded is a circular import.
-/

namespace Hygiene

namespace Expand

/-- Registers a text; answers its number. -/
def addSource (name text : String) : Expand Nat :=
  modifyGet fun run => let (file, sources) := run.sources.add name text; (file, { run with sources })

/-- Runs while a module counts as being expanded, however it ends. -/
def whileLoading {α : Type} (specifier : String) (act : Expand α) : Expand α := fun run =>
  match act { run with loading := specifier :: run.loading } with
  | .ok a run => .ok a { run with loading := run.loading.tail }
  | .error e run => .error e { run with loading := run.loading.tail }

/-- The tokens of a module's text, without its pragma, and its dialect. -/
def readModule (specifier text : String) (file : Nat) (dialect : Dialect) : Expand (Dialect × List Token) :=
  match read text with
  | .error e => fail (.read specifier e.fault) ⟨some file, e.span⟩
  | .ok trees => match splitPragma (Token.ofTrees file trees) with
    | .error (fault, site) => fail (.parse (.pragma fault)) site
    | .ok (pragma, tokens) => return (pragma.getD dialect, tokens)

/-- Expands the text of a module and keeps its record. `expand` expands the tokens of a module. -/
def compile (expand : Home → List Token → Expand (List ModuleItem)) (specifier text : String) (dialect : Dialect) :
    Expand ModuleRecord := do
  note ("expanding module '" ++ specifier ++ "'")
  let file ← addSource specifier text
  let (dialect, tokens) ← readModule specifier text file dialect
  let scope ← freshScope (.text file tokens)
  let items ← whileLoading specifier (expand ⟨specifier, file, dialect⟩ (Token.wrap scope tokens))
  match ModuleRecord.ofItems (← get).store specifier file dialect items with
  | .error ident => fail (.parse (.undeclaredExport ident.name)) ident.site
  | .ok record =>
    modify fun run => { run with
      modules := Assoc.insert specifier record run.modules
      snapshots := ⟨specifier, run.store, run.registry⟩ :: run.snapshots }
    return record

/-- The imports that lead from a module that is being expanded back to it. `loading` has the innermost one first. -/
def importChain (loading : List String) (specifier : String) : List String :=
  specifier :: (loading.takeWhile (· ≠ specifier)).reverse ++ [specifier]

/-- The record of a module, which is loaded and expanded when it is first asked for. -/
def load (s : Setup) (expand : Home → List Token → Expand (List ModuleItem)) (specifier : String) (site : Site) :
    Expand ModuleRecord := do
  let run ← get
  match Assoc.get? specifier run.modules with
  | some record => return record
  | none =>
    if run.loading.contains specifier then fail (.circularImport (importChain run.loading specifier)) site
    else
      set { run with asked := specifier :: run.asked }
      match s.load specifier with
      | .error reason => fail (.moduleNotFound specifier reason) site
      | .ok text => compile expand specifier text s.config.defaultDialect

end Expand

/-- The readers of terms that go at most `limit` levels deep. -/
def passes (s : Setup) : Nat → Home → Passes
  | 0, _ => {
      limit := 0
      assignment := fun _ => Expand.exhausted
      unary := fun _ => Expand.exhausted
      statement := fun _ => Expand.exhausted
      body := fun _ => Expand.exhausted
      load := fun _ _ => Expand.exhausted }
  | limit + 1, home => {
      limit
      assignment := fun stream => Parse.assignmentStep (passes s limit home) stream
      unary := fun stream => Parse.unaryStep s (passes s limit home) stream
      statement := fun stream => Parse.statementStep s home (passes s limit home) stream
      body := fun tokens => Expand.body (passes s limit home) tokens
      load := fun specifier site =>
        Expand.load s (fun home tokens => Expand.moduleItems s home (passes s limit home) tokens) specifier site }

/-- Expands the tokens of a module. -/
def Expand.items (s : Setup) (home : Home) (tokens : List Token) : Expand (List ModuleItem) :=
  Expand.moduleItems s home (passes s s.limit home) tokens

end Hygiene
