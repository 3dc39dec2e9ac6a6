import Hygiene.Module.Dialect
import Hygiene.Scope.Store
import Hygiene.Term.Basic

/-!
# Module records

An expanded module: its items and its exports. Those that stand for transformers are used up at compile time, and kept
apart.
-/

namespace Hygiene

/-- An expanded module. -/
structure ModuleRecord where
  specifier : String
  file : Nat
  dialect : Dialect
  items : List ModuleItem
  runtimeExports : List (String × BindingId) := []
  transformerExports : List (String × BindingId) := []

namespace ModuleRecord

/-- The record with an export of a binding added. -/
def addExport (r : ModuleRecord) (name : String) (b : Binding) : ModuleRecord :=
  if b.kind.isTransformer then { r with transformerExports := Assoc.insert name b.id r.transformerExports }
  else { r with runtimeExports := Assoc.insert name b.id r.runtimeExports }

/-- The identifiers that an export declares. -/
def declared : ExportDeclaration → List Token
  | .declaration d => d.declarators.map (·.binding)
  | .function fn => fn.name.toList
  | .defaultValue binding _ => [binding]

/-- The record with the exports of an export list added. An export must be bound; the first that is not is the error. -/
def addSpecifiers (store : Store) : List ExportSpecifier → ModuleRecord → Except Token ModuleRecord
  | [], r => .ok r
  | s :: rest, r => match store.resolveIdent s.inner with
    | some b => addSpecifiers store rest (r.addExport s.exportName b)
    | none => .error s.inner

/-- The record with the exports of the items added, in order. -/
def addItems (store : Store) : List ModuleItem → ModuleRecord → Except Token ModuleRecord
  | [], r => .ok r
  | .exportItem exported _ :: rest, r =>
    addItems store rest <| ((declared exported).filterMap store.resolveIdent).foldl (fun r b => r.addExport b.name b) r
  | .exportList specifiers _ :: rest, r => do addItems store rest (← addSpecifiers store specifiers r)
  | .importItem _ :: rest, r => addItems store rest r
  | .statement _ :: rest, r => addItems store rest r

/-- The record of expanded items, or the identifier of an export that is not bound. -/
def ofItems (store : Store) (specifier : String) (file : Nat) (dialect : Dialect) (items : List ModuleItem) :
    Except Token ModuleRecord :=
  addItems store items { specifier, file, dialect, items }

/-- The binding that a name is exported as, and whether it stands for a transformer. -/
def export? (r : ModuleRecord) (name : String) : Option (BindingId × Bool) :=
  match Assoc.get? name r.transformerExports with
  | some id => some (id, true)
  | none => (Assoc.get? name r.runtimeExports).map fun id => (id, false)

end ModuleRecord

end Hygiene
