import Hygiene.Config
import Hygiene.Config.Document

/-!
# Configuration files

A document whose keys are the fields of a configuration. A field without a setting keeps its default. Repeated keys,
unknown keys and values of the wrong kind are refused.
-/

namespace Hygiene.Config

/-- The names of the dialects in a configuration. -/
def dialectOf? (name : String) : Option Dialect :=
  Assoc.get? name [("base", .base), ("sweet", .sweet)]

/-- The names of the renderings in a configuration. -/
def renderingOf? (name : String) : Option NameRendering :=
  Assoc.get? name [("placeholder", .placeholder), ("fresh", .fresh)]

/-- The configuration with a setting applied. -/
def set (c : Config) (key : String) (value : Setting) : Except ConfigFault Config :=
  let given (changed : Option Config) : Except ConfigFault Config :=
    match changed with
    | some c => .ok c
    | none => .error (.wrongValue key)
  match key with
  | "max_expansions" => given (value.count?.map fun n => { c with maxExpansions := some n })
  | "max_call_depth" => given (value.count?.map fun n => { c with maxCallDepth := n })
  | "track_locations" => given (value.truth?.map fun b => { c with trackLocations := b })
  | "names" => given ((value.choice?.bind renderingOf?).map fun r => { c with names := r })
  | "default_dialect" => given ((value.choice?.bind dialectOf?).map fun d => { c with defaultDialect := d })
  | "entry_dialect" => given ((value.choice?.bind dialectOf?).map fun d => { c with entryDialect := d })
  | _ => .error (.unknownKey key)

/-- The configuration that a file describes. -/
def ofText (text : String) : Except ConfigFault Config := do
  let settings ← SettingTable.ofText text
  settings.foldlM (fun c (key, value) => c.set key value) {}

end Hygiene.Config
