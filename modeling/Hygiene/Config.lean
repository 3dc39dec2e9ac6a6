import Hygiene.Module.Dialect

/-!
# Configuration

The choices that a run can be given. Each has a default.
-/

namespace Hygiene

/-- How the names of renamed bindings are written. -/
inductive NameRendering where
  /-- One and the same placeholder for all of them. -/
  | placeholder
  /-- The fresh name of each. -/
  | fresh
deriving Repr, DecidableEq

/-- The choices of a run. -/
structure Config where
  /-- How many transformers may be invoked; without a number there is no limit. -/
  maxExpansions : Option Nat := none
  /-- How deep the calls of running code may be nested. -/
  maxCallDepth : Nat := 256
  /-- Whether the output tells where its nodes were written. -/
  trackLocations : Bool := false
  names : NameRendering := .placeholder
  /-- The dialect of imported modules without a pragma. -/
  defaultDialect : Dialect := .base
  /-- The dialect of an entry program without a pragma. -/
  entryDialect : Dialect := .sweet
deriving Repr, DecidableEq

end Hygiene
