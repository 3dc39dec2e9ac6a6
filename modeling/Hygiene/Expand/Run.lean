import Hygiene.Config
import Hygiene.Eval.Step
import Hygiene.Expand.Error
import Hygiene.Expand.Event
import Hygiene.Module.Record

/-!
# The state of a run

Everything that lives for one run. An expansion changes the run and ends with a result or an error, and with a run in
both cases.
-/

namespace Hygiene

/-- When code runs. -/
inductive Phase where
  /-- As the program. -/
  | runtime
  /-- While the program is expanded. -/
  | compileTime
deriving Repr, DecidableEq

/-- The values of a module's runtime exports. -/
abbrev Instance := List (String × Value)

/-- Something that a run did with the code of a module. -/
inductive Activity where
  /-- Running the module began. -/
  | entered (specifier : String) (phase : Phase)
  /-- The statements of the module began to run. -/
  | started (record : ModuleRecord) (phase : Phase)
  /-- The statements of the module have run. -/
  | finished (specifier : String) (phase : Phase)
  /-- The instance of the module was given to a module that imports it. -/
  | given (specifier : String) (phase : Phase) (values : Instance)

/-- What was bound when the expansion of a module was finished, and what it meant. -/
structure Snapshot where
  specifier : String
  store : Store
  registry : Registry

/-- An invocation of a transformer. -/
structure Origin where
  name : String
  callSite : Option Location
  definitionSite : Option Location

/-- An import that is carried out. -/
structure ImportRequest where
  /-- The modules that are being expanded, the innermost first. -/
  loading : List String
  /-- The module that is imported. -/
  specifier : String
deriving Repr, DecidableEq

/-- What one run has gathered. -/
structure Run where
  store : Store := {}
  registry : Registry := {}
  sources : Sources := {}
  heap : Heap := {}
  /-- The number of the next lambda. -/
  nextLambda : Nat := 0
  /-- The expanded modules, in the order in which they were finished. -/
  modules : List (String × ModuleRecord) := []
  /-- The modules that are being expanded, the innermost first. -/
  loading : List String := []
  /-- The values of runtime exports, by module and phase. -/
  instances : List ((String × Phase) × Instance) := []
  /-- How many transformers have been invoked. -/
  expansions : Nat := 0
  /-- The invocations that no result has told yet, the last one first. -/
  origins : List Origin := []
  /-- The reports that no result has told yet, the last one first. -/
  diagnostics : List Diagnostic := []
  /-- The messages about the progress of the run, the last one first. -/
  log : List String := []
  /-- The modules asked of the loader, the last one first. -/
  asked : List String := []
  /-- The imports that were begun, the last one first. -/
  requests : List ImportRequest := []
  /-- What was done with the code of modules, the last thing first. -/
  activities : List Activity := []
  /-- What was bound when modules were finished, for the last one first. -/
  snapshots : List Snapshot := []
  /-- The events, the last one first. -/
  events : List Event := []

/-- What a run is given: its configuration, a source of module texts, and how many steps deep it may go. -/
structure Setup where
  config : Config := {}
  load : String → Except String String
  limit : Nat := Nat.pow 2 48

/-- The module that code belongs to. -/
structure Home where
  specifier : String
  file : Nat
  dialect : Dialect

/-- An expansion. -/
abbrev Expand := EStateM ExpandError Run

namespace Expand

variable {α : Type}

/-- Ends with an error at a site. -/
def fail (fault : ExpandFault) (site : Site) : Expand α := fun run =>
  .error ⟨fault, run.sources.locateSite site⟩ run

/-- Ends because the steps are used up. -/
def exhausted : Expand α := throw ⟨.exhausted, none⟩

/-- Records an event. -/
def record (event : Event) : Expand Unit := modify fun run => { run with events := event :: run.events }

/-- Records what is done with the code of a module. -/
def track (activity : Activity) : Expand Unit := modify fun run => { run with activities := activity :: run.activities }

/-- A scope that was never used before; `event` tells what it is made for. -/
def freshScope (event : ScopeId → Event) : Expand ScopeId :=
  modifyGet fun run =>
    let (scope, store) := run.store.freshScope
    (scope, { run with store, events := event scope :: run.events })

/-- Gives tokens the scope of their region. -/
def enclose (scope : ScopeId) (tokens : List Token) : Expand (List Token) := do
  record (.enclosed scope tokens)
  return Token.wrap scope tokens

/-- Takes the scope of a region away from the tokens behind it. -/
def leave (scope : ScopeId) (tokens : List Token) : Expand (List Token) := do
  record (.left scope tokens)
  return Token.strip scope tokens

/-- Binds an identifier. -/
def bind (ident : Token) (kind : BindingKind) (rename : Bool) : Expand BindingId :=
  modifyGet fun run =>
    let (id, store) := run.store.bind ident kind rename
    (id, { run with store, events := (store.binding? id).toList.map .bound ++ run.events })

/-- Binds the identifier of a variable, a function or a parameter. -/
def bindVariable (ident : Token) : Expand Unit := discard (bind ident .declared true)

/-- The number for a new lambda. -/
def freshLambda : Expand Nat :=
  modifyGet fun run => (run.nextLambda, { run with nextLambda := run.nextLambda + 1 })

/-- Notes a message about the progress of the run. -/
def note (message : String) : Expand Unit := modify fun run => { run with log := message :: run.log }

/-- The code of reports about written lines. -/
def traceCode : String := "I0801"

/-- Reports the lines that code has written while the code at a site ran. -/
def recordTrace (lines : List String) (site : Site) : Expand Unit :=
  lines.forM fun line => do
    note ("console.log: " ++ line)
    modify fun run =>
      let report : Diagnostic :=
        { severity := .info, code := some traceCode, message := line, location := run.sources.locateSite site }
      { run with diagnostics := report :: run.diagnostics }

/-- An environment with one new frame. -/
def newEnvironment : Expand Environment :=
  modifyGet fun run => let (env, heap) := run.heap.newEnvironment; (env, { run with heap })

/-- Runs code in an environment. Answers how it ends and the lines it writes. -/
def runCode (s : Setup) (env : Environment) (act : World → Evaluator → Eval α) :
    Expand (Except Signal α × List String) := fun run =>
  let heap := run.heap
  let run := { run with heap := {} }
  let world : World :=
    { store := run.store, registry := run.registry, sources := run.sources, maxCallDepth := s.config.maxCallDepth }
  match act world (evaluator world s.limit) { heap, env } with
  | .ok value m => .ok (.ok value, m.trace.toList) { run with heap := m.heap }
  | .error signal m => .ok (.error signal, m.trace.toList) { run with heap := m.heap }

/-- Runs code in an environment. The lines it writes are reported at the site, however it ends. -/
def evaluate (s : Setup) (env : Environment) (site : Site) (act : World → Evaluator → Eval α) :
    Expand (Except Signal α) := do
  let (result, trace) ← runCode s env act
  recordTrace trace site
  match result with
  | .error .exhausted => exhausted
  | _ => return result

end Expand

end Hygiene
