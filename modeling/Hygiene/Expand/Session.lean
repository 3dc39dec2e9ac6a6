import Hygiene.Expand.Module
import Hygiene.Output.Lower

/-!
# Expanding and evaluating programs

The operations on whole programs. Each starts a new run, and leaves the run so that it can be asked about afterwards.
-/

namespace Hygiene

/-- The specifier under which an entry program is known. -/
def entrySpecifier : String := "<main>"

/-- What an expansion gives. -/
structure Expansion where
  tree : Node
  expansions : Nat
  /-- The invocations in order. -/
  origins : List Origin
  /-- The reports in order. -/
  diagnostics : List Diagnostic

/-- An account of a run. -/
structure Summary where
  modules : List String
  expansions : Nat
  transformers : Nat

/-- The account of a run so far. -/
def Run.summary (run : Run) : Summary where
  modules := Assoc.keys run.modules
  expansions := run.expansions
  transformers := run.registry.count

namespace Expand

/-- Takes the origins and the reports out of the run. -/
def takeReports : Expand (List Origin × List Diagnostic) :=
  modifyGet fun run => ((run.origins.reverse, run.diagnostics.reverse), { run with origins := [], diagnostics := [] })

/-- The output of an expanded module. -/
def finish (s : Setup) (record : ModuleRecord) : Expand Expansion := do
  let run ← get
  let lowering : Lowering := { store := run.store, sources := run.sources, config := s.config }
  note ("expanded '" ++ record.specifier ++ "': " ++ toString run.expansions ++ " macro invocations, " ++
    toString run.modules.length ++ " modules")
  let (origins, diagnostics) ← takeReports
  return { tree := lowering.module record, expansions := run.expansions, origins, diagnostics }

/-- Expands the text of an entry program. -/
def entry (s : Setup) (text : String) : Expand ModuleRecord :=
  compile (items s) entrySpecifier text s.config.entryDialect

/-- Expands a program. -/
def program (s : Setup) (text : String) : Expand Expansion := do finish s (← entry s text)

/-- Expands a module that the loader knows. -/
def moduleProgram (s : Setup) (specifier : String) : Expand Expansion := do
  finish s (← load s (items s) specifier .unknown)

/-- Expands a program and runs it; answers the environment that it leaves. -/
def evaluateProgram (s : Setup) (text : String) : Expand Environment := do
  let record ← entry s text
  runModule s .runtime (instantiate s .runtime (← get).modules.length) record

end Expand

/-- Expands a program in a new run. -/
def expandProgram (s : Setup) (text : String) : EStateM.Result ExpandError Run Expansion := Expand.program s text {}

/-- Expands a module in a new run. -/
def expandModule (s : Setup) (specifier : String) : EStateM.Result ExpandError Run Expansion :=
  Expand.moduleProgram s specifier {}

/-- Expands a program and runs it, in a new run. -/
def evaluateProgram (s : Setup) (text : String) : EStateM.Result ExpandError Run Environment :=
  Expand.evaluateProgram s text {}

end Hygiene
