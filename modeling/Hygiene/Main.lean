import Hygiene.Cli.Files
import Hygiene.Cli.Run

/-!
# Entry point

Runs the program on the files of the system, again with the files it asked for until it asks for no other.
-/

namespace Hygiene

/-- The files that have been read, or the reasons why they could not be. -/
abbrev FileCache := List (String × Except String String)

/-- The message for an error number of the system, which may be given as a negative word. -/
def numberedMessage (details : String) (code : UInt32) : String :=
  let number := code.toInt32.toInt.natAbs
  match FileFault.ofNumber? number with
  | some fault => fault.message
  | none => details ++ " (os error " ++ toString number ++ ")"

/-- The message for an error of the system. -/
def systemMessage (e : IO.Error) : String :=
  match e with
  | .noFileOrDirectory _ code details => numberedMessage details code
  | .inappropriateType _ code details => numberedMessage details code
  | .permissionDenied _ code details => numberedMessage details code
  | .invalidArgument _ code details => numberedMessage details code
  | .otherError code details => numberedMessage details code
  | _ => "stream did not contain valid UTF-8"

/-- Reads a file. -/
def fetch (path : String) : IO (Except String String) := do
  if path.contains '\x00' then return .error FileFault.containsNul.message
  try return .ok (← IO.FS.readFile path) catch e => return .error (systemMessage e)

/-- Runs the program until it has all files it asks for. -/
partial def runWith (words : List String) (cache : FileCache) : IO Cli.Outcome := do
  let read (path : String) : Except String String := (Assoc.get? path cache).getD (.error "")
  let outcome := Cli.run read words
  match outcome.paths.filter fun path => !Assoc.contains path cache with
  | [] => return outcome
  | missing =>
    let fetched ← missing.mapM fun path => return (path, ← fetch path)
    runWith words (cache ++ fetched)

end Hygiene

/-- Runs the program and exits with its code. -/
def main (words : List String) : IO UInt32 := do
  let outcome ← Hygiene.runWith words []
  IO.print outcome.output
  IO.eprint outcome.errors
  return outcome.code.toUInt32
