import Hygiene.Expand.Run

/-!
# Instances of modules

The statements of a module run at most once in each phase, behind the modules it imports at runtime; the values of its
runtime exports are kept as its instance.
-/

namespace Hygiene

namespace ModuleItem

/-- The statement that an item runs as, if it runs. -/
def statement? : ModuleItem → Option Statement
  | .importItem _ => none
  | .exportList _ _ => none
  | .statement inner => some inner
  | .exportItem (.declaration d) site => some (.declaration d site)
  | .exportItem (.function fn) site => some (.function fn site)
  | .exportItem (.defaultValue binding value) site =>
    some (.declaration ⟨.constDecl, [⟨binding, some value, site⟩], site⟩ site)

/-- The import of an item that imports for runtime. -/
def runtimeImport? : ModuleItem → Option Import
  | .importItem imported => if imported.forSyntax then none else some imported
  | _ => none

end ModuleItem

/-- The identifiers that an import binds. -/
def Import.bindings (i : Import) : List Token := i.defaultBinding.toList ++ i.named.map (·.binding)

namespace Expand

/-- Defines the values of an import's runtime bindings in an environment. -/
def defineImports (instantiate : ModuleRecord → Expand Instance) (env : Environment) (imported : Import) :
    Expand Unit := do
  match Assoc.get? imported.specifier (← get).modules with
  | none => pure ()
  | some record =>
    let values ← instantiate record
    modify fun run =>
      let define (heap : Heap) (ident : Token) : Heap :=
        match run.store.resolveIdent ident with
        | some b => match b.kind with
          | .runtimeImport _ name => heap.define env b.fresh ((Assoc.get? name values).getD .undefined)
          | _ => heap
        | none => heap
      { run with heap := imported.bindings.foldl define run.heap }

/-- Runs the statements of a module at a phase, after the modules it imports; answers the environment they leave. -/
def runModule (s : Setup) (phase : Phase) (instantiate : ModuleRecord → Expand Instance) (record : ModuleRecord) :
    Expand Environment := do
  track (.entered record.specifier phase)
  let env ← newEnvironment
  (record.items.filterMap (·.runtimeImport?)).forM (defineImports instantiate env)
  track (.started record phase)
  let list := record.items.filterMap (·.statement?)
  Expand.record (.ran list)
  match ← evaluate s env ⟨some record.file, ⟨0, 0⟩⟩ fun w r => r.statements w list with
  | .ok _ =>
    track (.finished record.specifier phase)
    return env
  | .error signal => fail (.evaluation signal) signal.site

/-- The value of an exported binding: what it was given at compile time, or its variable. -/
def exportValue (run : Run) (env : Environment) (id : BindingId) : Value :=
  match run.store.binding? id with
  | none => .undefined
  | some b =>
    (match b.kind with
      | .compileTimeImport _ _ => run.registry.value? id
      | _ => run.heap.get? env b.fresh).getD .undefined

/-- The instance of a module at a phase. Imports are followed at most `limit` modules deep. -/
def instantiate (s : Setup) (phase : Phase) : Nat → ModuleRecord → Expand Instance
  | 0, _ => exhausted
  | limit + 1, record => do
    let key := (record.specifier, phase)
    match Assoc.get? key (← get).instances with
    | some values =>
      track (.given record.specifier phase values)
      return values
    | none =>
      let env ← runModule s phase (instantiate s phase limit) record
      let run ← get
      let values := record.runtimeExports.map fun (name, id) => (name, exportValue run env id)
      set { run with instances := Assoc.insert key values run.instances }
      track (.given record.specifier phase values)
      return values

end Expand

end Hygiene
