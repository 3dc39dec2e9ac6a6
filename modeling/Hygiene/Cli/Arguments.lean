import Hygiene.Config

/-!
# Command line arguments

A subcommand with a file and options. An option takes its value from the same word, after an equals sign, or from the
next word, and may not be repeated.
-/

namespace Hygiene

/-- Which messages about the progress of a run are shown. -/
inductive LogLevel where
  | off
  | error
  | warn
  | info
  | debug
  | trace
deriving Repr, DecidableEq

namespace LogLevel

/-- The level that a word names, in letters of either case. -/
def ofText? (word : String) : Option LogLevel :=
  match String.ofList (word.toList.map Char.toLower) with
  | "off" => some off
  | "error" => some error
  | "warn" => some warn
  | "info" => some info
  | "debug" => some debug
  | "trace" => some trace
  | _ => none

/-- Whether messages of the level of information are shown. -/
def showsInfo : LogLevel → Bool
  | info => true
  | debug => true
  | trace => true
  | _ => false

end LogLevel

/-- How the result of an expansion is shown. -/
inductive OutputFormat where
  /-- The output tree. -/
  | json
  /-- The account of the run and its invocations. -/
  | summary
deriving Repr, DecidableEq

/-- The format that a word names. -/
def OutputFormat.ofText? (word : String) : Option OutputFormat :=
  if word = "json" then some json else if word = "summary" then some summary else none

/-- The subcommands. -/
inductive Subcommand where
  | expand
  | eval
deriving Repr, DecidableEq

/-- What has been read of the arguments of a subcommand. -/
structure Arguments where
  file : Option String := none
  log : Option LogLevel := none
  config : Option String := none
  locations : Bool := false
  freshNames : Bool := false
  format : Option OutputFormat := none
deriving Repr, DecidableEq

/-- What a command line asks for. -/
inductive Request where
  | run (command : Subcommand) (file : String) (arguments : Arguments)
  | version
  | help
deriving Repr, DecidableEq

/-- What is wrong with a command line. -/
inductive UsageFault where
  | missingCommand
  | unknownWord (word : String)
  | missingValue (option : String)
  | invalidValue (option value : String)
  | repeated (option : String)
  | missingFile
deriving Repr, DecidableEq

/-- The message for a command line. -/
def UsageFault.message : UsageFault → String
  | missingCommand => "error: a subcommand is required"
  | unknownWord word => "error: unexpected argument '" ++ word ++ "' found"
  | missingValue option => "error: a value is required for '" ++ option ++ "' but none was supplied"
  | invalidValue option value => "error: invalid value '" ++ value ++ "' for '" ++ option ++ "'"
  | repeated option => "error: the argument '" ++ option ++ "' cannot be used multiple times"
  | missingFile => "error: the following required arguments were not provided: <FILE>"

namespace Arguments

/-- The options that take a value, by subcommand; before the subcommand there is only the level. -/
def valueOptions : Option Subcommand → List String
  | none => ["--log"]
  | some .expand => ["--log", "--config", "--format"]
  | some .eval => ["--log", "--config"]

/-- Splits a word at its first equals sign. -/
def splitValue (word : String) : String × Option String :=
  match word.toList.span (· ≠ '=') with
  | (name, _ :: value) => (String.ofList name, some (String.ofList value))
  | (name, []) => (String.ofList name, none)

/-- Whether a word is an option and not a value: it begins with a dash and is more than a dash. -/
def looksLikeOption (word : String) : Bool := word.startsWith "-" && word ≠ "-"

/-- The arguments with the value of an option set. -/
def setOption (a : Arguments) (option value : String) : Except UsageFault Arguments :=
  match option with
  | "--log" =>
    if a.log.isSome then .error (.repeated option)
    else match LogLevel.ofText? value with
      | some level => .ok { a with log := some level }
      | none => .error (.invalidValue option value)
  | "--config" =>
    if a.config.isSome then .error (.repeated option)
    else if value.isEmpty then .error (.invalidValue option value)
    else .ok { a with config := some value }
  | "--format" =>
    if a.format.isSome then .error (.repeated option)
    else match OutputFormat.ofText? value with
      | some format => .ok { a with format := some format }
      | none => .error (.invalidValue option value)
  | _ => .error (.unknownWord option)

/-- The arguments with a switch set. -/
def setSwitch (a : Arguments) (command : Subcommand) (word : String) : Except UsageFault Arguments :=
  match command, word with
  | .expand, "--locations" => if a.locations then .error (.repeated word) else .ok { a with locations := true }
  | .expand, "--fresh-names" => if a.freshNames then .error (.repeated word) else .ok { a with freshNames := true }
  | _, _ => .error (.unknownWord word)

/-- The arguments with the file set. -/
def setFile (a : Arguments) (word : String) : Except UsageFault Arguments :=
  if a.file.isSome then .error (.unknownWord word)
  else if word.isEmpty then .error (.invalidValue "<FILE>" word)
  else .ok { a with file := some word }

/-- The request of a subcommand whose arguments have all been read. -/
def finish (a : Arguments) (command : Subcommand) : Except UsageFault Request :=
  match a.file with
  | some file => .ok (.run command file a)
  | none => .error .missingFile

/-- What the next word can be. -/
inductive Expecting where
  | any
  /-- A file, because two dashes came before. -/
  | file
  /-- The value of an option. -/
  | value (option : String)

/-- The arguments after an option, and what the next word can be. -/
def readOption (a : Arguments) (command : Option Subcommand) (word : String) :
    Except UsageFault (Arguments × Expecting) :=
  let (option, value) := splitValue word
  if (valueOptions command).contains option then
    match value with
    | some value => return (← a.setOption option value, .any)
    | none => .ok (a, .value option)
  else match command with
    | some command => return (← a.setSwitch command word, .any)
    | none => .error (.unknownWord word)

/-- The arguments with the value of an option, which must not look like an option itself. -/
def readValue (a : Arguments) (option word : String) : Except UsageFault Arguments :=
  if looksLikeOption word then .error (.missingValue option) else a.setOption option word

/-- Reads the words of a subcommand. -/
def ofWords (command : Subcommand) : Arguments → Expecting → List String → Except UsageFault Request
  | _, .value option, [] => .error (.missingValue option)
  | a, _, [] => a.finish command
  | a, .value option, word :: rest => do ofWords command (← a.readValue option word) .any rest
  | a, .file, word :: rest => do ofWords command (← a.setFile word) .file rest
  | a, .any, word :: rest =>
    if word = "--" then ofWords command a .file rest
    else if word = "--help" ∨ word = "-h" then .ok .help
    else if looksLikeOption word then do
      let (a, expecting) ← a.readOption (some command) word
      ofWords command a expecting rest
    else do ofWords command (← a.setFile word) .any rest

end Arguments

/-- A level given after the subcommand counts more than one given before it. -/
def Request.withOuterLog (level : Option LogLevel) : Request → Request
  | .run command file a => .run command file { a with log := a.log.or level }
  | request => request

namespace Request

/-- The subcommand that a word names. -/
def subcommand? (word : String) : Option Subcommand :=
  if word = "expand" then some .expand else if word = "eval" then some .eval else none

/-- The request for help, which may name a subcommand. -/
def ofHelpWords : List String → Except UsageFault Request
  | [] => .ok .help
  | [word] => if word = "help" || (subcommand? word).isSome then .ok .help else .error (.unknownWord word)
  | _ :: word :: _ => .error (.unknownWord word)

/-- Reads the words before the subcommand and those after it. -/
def ofWords : Arguments → Arguments.Expecting → List String → Except UsageFault Request
  | _, .value option, [] => .error (.missingValue option)
  | _, _, [] => .error .missingCommand
  | a, .value option, word :: rest => do ofWords (← a.readValue option word) .any rest
  | a, _, word :: rest =>
    if word = "--help" ∨ word = "-h" then .ok .help
    else if word = "help" then ofHelpWords rest
    else if word = "--version" ∨ word = "-V" then .ok .version
    else match subcommand? word with
      | some command => return (← Arguments.ofWords command {} .any rest).withOuterLog a.log
      | none => do
        let (a, expecting) ← a.readOption none word
        ofWords a expecting rest

/-- Reads a command line. -/
def ofCommandLine (words : List String) : Except UsageFault Request := ofWords {} .any words

end Request

end Hygiene
