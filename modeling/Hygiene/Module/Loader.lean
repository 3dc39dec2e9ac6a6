/-!
# Sources of modules

Where the texts of modules come from: a table of texts, or files below a root directory.
-/

namespace Hygiene

/-- Gives the texts of a table. Of several texts under one specifier the last one counts. -/
def tableLoader (modules : List (String × String)) (specifier : String) : Except String String :=
  match modules.reverse.find? (·.1 = specifier) with
  | some (_, text) => .ok text
  | none => .error ("no module registered as '" ++ specifier ++ "'")

/-- A path below another one. An absolute path stands for itself. -/
def joinPath (root path : String) : String :=
  if path.startsWith "/" then path
  else if root.isEmpty || root.endsWith "/" then root ++ path
  else root ++ "/" ++ path

/-- A specifier without the marker of the current directory at its start. -/
def relativePath (specifier : String) : String :=
  match specifier.toList with
  | '.' :: '/' :: rest => String.ofList rest
  | _ => specifier

/-- The path of a module's file: a specifier is a path relative to a root directory. -/
def modulePath (root specifier : String) : String := joinPath root (relativePath specifier)

end Hygiene
