import Hygiene.Cli.Arguments
import Hygiene.Config.File
import Hygiene.Expand.Session
import Hygiene.Module.Loader

/-!
# The program

What the program prints and how it exits, given its arguments and a way to read files. It has no effects; it tells which
files it asked for.
-/

namespace Hygiene.Cli

/-- How the program ends. -/
structure Outcome where
  code : Nat
  output : String := ""
  errors : String := ""
  /-- The paths of the files that were asked for. -/
  paths : List String := []

/-- The name and the number of the program. -/
def versionText : String := "sweeten 0.1.0\n"

/-- How the program is used. -/
def helpText : String :=
  "Sweeten - hygienic macro expander\n\nUsage: sweeten [OPTIONS] <COMMAND>\n\nCommands:\n" ++
  "  expand  Expand a program and print the result\n" ++
  "  eval    Expand a program and evaluate its runtime code\n" ++
  "  help    Print this message or the help of the given subcommand(s)\n\nOptions:\n" ++
  "      --log <LOG>  Log level (error, warn, info, debug, trace); RUST_LOG wins when unset\n" ++
  "  -h, --help       Print help\n  -V, --version    Print version\n"

/-- An outcome that reports an error. -/
def failed (message : String) (paths : List String) : Outcome := { code := 1, errors := message ++ "\n", paths }

/-- The directory of a file, with the slash after it. -/
def directoryOf (path : String) : String :=
  String.ofList (path.toList.reverse.dropWhile (· ≠ '/')).reverse

/-- The messages about the progress of a run, when they are shown. -/
def logText (level : Option LogLevel) (run : Run) : String :=
  if level.any LogLevel.showsInfo then
    String.join (run.log.reverse.map fun line => "[INFO ] expander::expander - " ++ line ++ "\n")
  else ""

/-- An account of a run as JSON. -/
def summaryJson (s : Summary) : Json :=
  .object [("modules", .array (s.modules.map .str)), ("expansions", .int s.expansions), ("macros", .int s.transformers)]

/-- An invocation and where it was. -/
def originText (o : Origin) : String :=
  let (line, column) := match o.callSite with
    | some l => (l.start.line, l.start.column)
    | none => (0, 0)
  o.name ++ " at " ++ toString line ++ ":" ++ toString column ++ "\n"

/-- What is printed for an expansion. -/
def expansionText (format : OutputFormat) (run : Run) (e : Expansion) : String :=
  match format with
  | .json => e.tree.json.pretty ++ "\n"
  | .summary => (summaryJson run.summary).pretty ++ "\n" ++ String.join (e.origins.map originText)

/-- What is printed for the variables that a program leaves. -/
def variablesText (run : Run) (env : Environment) : String :=
  String.join ((run.heap.names env).filterMap fun name =>
    (run.heap.get? env name).map fun value => name ++ " = " ++ value.text ++ "\n")

/-- The outcome of a run; `print` gives what is printed for its result. -/
def outcome {α : Type} (paths : List String) (log : Option LogLevel) (root : String)
    (print : Run → α → String × String) : EStateM.Result ExpandError Run α → Outcome
  | .ok a run =>
    let (output, reports) := print run a
    { code := 0, output, errors := logText log run ++ reports, paths := paths ++ run.asked.map (modulePath root) }
  | .error e run =>
    { code := 1, errors := logText log run ++ e.diagnostic.render run.sources false ++ "\n",
      paths := paths ++ run.asked.map (modulePath root) }

/-- Runs a subcommand on a text. -/
def runCommand (read : String → Except String String) (command : Subcommand) (a : Arguments) (config : Config)
    (paths : List String) (file text : String) : Outcome :=
  let root := directoryOf file
  let load (specifier : String) := read (modulePath root specifier)
  match command with
  | .expand =>
    let config : Config := {
      config with
      trackLocations := config.trackLocations || a.locations
      names := if a.freshNames then .fresh else config.names }
    let print (run : Run) (e : Expansion) :=
      (expansionText (a.format.getD .json) run e,
        String.join (e.diagnostics.map fun d => d.render run.sources false ++ "\n"))
    outcome paths a.log root print (expandProgram { config, load } text)
  | .eval =>
    let print (run : Run) (env : Environment) := (variablesText run env, "")
    outcome paths a.log root print (evaluateProgram { config, load } text)

/-- The configuration that the arguments ask for, or the message why there is none. -/
def readConfig (read : String → Except String String) : Option String → Except String Config
  | none => .ok {}
  | some path => match read path with
    | .error reason => .error ("Error: cannot read config '" ++ path ++ "': " ++ reason)
    | .ok text => (Config.ofText text).mapError fun fault => "Error: invalid config: " ++ fault.message

/-- Runs the program. -/
def run (read : String → Except String String) (words : List String) : Outcome :=
  match Request.ofCommandLine words with
  | .error fault => { code := 2, errors := fault.message ++ "\n" }
  | .ok .version => { code := 0, output := versionText }
  | .ok .help => { code := 0, output := helpText }
  | .ok (.run command file a) =>
    let paths := a.config.toList
    match readConfig read a.config with
    | .error message => failed message paths
    | .ok config =>
      let paths := file :: paths
      match read file with
      | .error reason => failed ("Error: cannot read " ++ file ++ ": " ++ reason) paths
      | .ok text => runCommand read command a config paths file text

end Hygiene.Cli
