import Hygiene.Eval.Error
import Hygiene.Eval.Heap
import Hygiene.Scope.Registry
import Hygiene.Source.Text

/-!
# The state of running code

Running code changes a machine: frames and cursors, the environment, the depth of calls, and the lines it has written.
What it only looks at, the bindings and the compile-time values, is its world. An evaluation ends with a value or a
signal, and with a machine in both cases.
-/

namespace Hygiene

/-- What running code looks things up in. -/
structure World where
  store : Store
  registry : Registry
  sources : Sources := {}
  /-- How deep calls may be nested. -/
  maxCallDepth : Nat

/-- A closure was called. -/
structure ClosureCall where
  fn : Lambda
  site : Site
  /-- How deep the calls were nested where it was made. -/
  depth : Nat
  /-- Whether the body was run; otherwise the call was refused. -/
  entered : Bool

/-- What running code changes. -/
structure Machine where
  heap : Heap
  env : Environment
  /-- How deep the calls are nested. -/
  depth : Nat := 0
  /-- The lines written so far. -/
  trace : Array String := #[]
  /-- The calls of closures so far, the last one first. No code looks at them. -/
  calls : List ClosureCall := []

/-- An evaluation. -/
abbrev Eval := EStateM Signal Machine

namespace Eval

variable {α : Type}

/-- Ends with a fault. -/
def fail (fault : Fault) (site : Site) : Eval α := throw (.fault fault site)

/-- Ends with a fault about a type. -/
def failType (fault : TypeFault) (site : Site) : Eval α := throw (.typeFault fault site)

/-- A result that may be a fault, at a site. -/
def lift (result : Except Fault α) (site : Site) : Eval α :=
  match result with
  | .ok a => pure a
  | .error fault => fail fault site

/-- A result that may be a fault about a type, at a site. -/
def liftType (result : Except TypeFault α) (site : Site) : Eval α := lift (result.mapError .wrongType) site

/-- A result that may be unsupported, at a site. -/
def liftUnsupported (result : Except Unsupported α) (site : Site) : Eval α := lift (result.mapError .unsupported) site

/-- Defines a variable in the innermost frame. -/
def define (name : String) (value : Value) : Eval Unit :=
  modify fun m => { m with heap := m.heap.define m.env name value }

/-- Sets a variable where it is defined; otherwise `elsewhere` defines it. -/
def assignOr (elsewhere : Heap → Environment → String → Value → Heap) (name : String) (value : Value) : Eval Unit :=
  modify fun m => match m.heap.holder? m.env name with
    | some id => { m with heap := m.heap.store id name value }
    | none => { m with heap := elsewhere m.heap m.env name value }

/-- Writes a line. -/
def write (line : String) : Eval Unit := modify fun m => { m with trace := m.trace.push line }

/-- Runs in a new innermost frame, and leaves it however the run ends. -/
def inFrame (act : Eval α) : Eval α := fun ⟨heap, env, depth, trace, calls⟩ =>
  let (env, heap) := heap.push env
  match act { heap, env, depth, trace, calls } with
  | .ok a m => .ok a { m with env := m.env.pop }
  | .error signal m => .error signal { m with env := m.env.pop }

/-- Runs the body of a loop once; answers whether the loop goes on. -/
def iteration (body : Eval Unit) : Eval Bool := fun m =>
  match body m with
  | .ok _ m => .ok true m
  | .error .broke m => .ok false m
  | .error .continued m => .ok true m
  | .error signal m => .error signal m

/-- Repeats a body as long as a test holds, at most as often as given. -/
def loop (test : Eval Value) (body : Eval Unit) : Nat → Eval Unit
  | 0 => throw .exhausted
  | limit + 1 => do
    if (← test).isTruthy then
      if ← iteration body then loop test body limit else pure ()
    else
      pure ()

/-- Runs the statements of a function; their value is the one they return. -/
def returning (act : Eval Unit) : Eval Value := fun m =>
  match act m with
  | .ok _ m => .ok .undefined m
  | .error (.returned value) m => .ok value m
  | .error signal m => .error signal m

end Eval

/-- The values that every program can name. -/
def globalValue? (name : String) : Option Value :=
  match name with
  | "undefined" => some .undefined
  | "NaN" => some (.number Value.notANumber)
  | "Infinity" => some (.number (Float.ofBits 0x7ff0000000000000))
  | "console" => some (.object [("log", .builtin .consoleLog)])
  | "String" => some (.builtin .toText)
  | "Number" => some (.builtin .toNumber)
  | _ => none

/-- The value of an identifier. A transformer has none, and a compile-time import has the one it was given. -/
def lookup (w : World) (m : Machine) (ident : Token) : Except Fault Value :=
  let name := ident.name
  let found (value : Option Value) : Except Fault Value :=
    match value with
    | some v => .ok v
    | none => .error (.undefinedVariable name)
  match w.store.resolveIdent ident with
  | some binding => match binding.kind with
    | .compileTimeImport _ _ => found (w.registry.value? binding.id)
    | .transformer => .error (.wrongType (.transformerAsValue name))
    | .declared => found (m.heap.get? m.env binding.fresh)
    | .runtimeImport _ _ => found (m.heap.get? m.env binding.fresh)
  | none => found ((m.heap.get? m.env name).or (globalValue? name))

end Hygiene
