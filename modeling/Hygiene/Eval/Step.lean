import Hygiene.Eval.Machine
import Hygiene.Template
import Hygiene.Value.Method
import Hygiene.Value.Operator

/-!
# Evaluation

How each expression and statement is evaluated, given how the smaller ones are. Parts are evaluated from left to right.
Values are copied, so a change to a member is stored back, step by step, to the variable it was reached from.
-/

namespace Hygiene

/-- How the parts of a term are evaluated, and how often a loop may go on. -/
structure Evaluator where
  expression : Expression → Eval Value
  statement : Statement → Eval Unit
  limit : Nat

namespace Evaluator

/-- The closure that a function makes where it stands. -/
def close (fn : Lambda) : Eval Value := return .closure ⟨fn, (← get).env⟩

/-- Defines a function under its name. -/
def declare (w : World) (fn : Lambda) : Eval Unit :=
  match fn.name with
  | some name => do Eval.define (w.store.slot name) (← close fn)
  | none => pure ()

/-- Defines the function of a statement that declares one. -/
def hoist (w : World) : Statement → Eval Unit
  | .function fn _ => declare w fn
  | _ => pure ()

/-- Runs statements; the functions that they declare are defined first. -/
def statements (w : World) (r : Evaluator) (list : List Statement) : Eval Unit := do
  list.forM (hoist w)
  list.forM r.statement

/-- The variables that a call defines: the function's own name, unless it is an arrow, its parameters, and the array of
the other arguments. -/
def callBindings (w : World) (c : Closure) (args : List Value) : List (String × Value) :=
  let own := if c.fn.arrow then [] else c.fn.name.toList.map fun name => (w.store.slot name, Value.closure c)
  let params := c.fn.params.mapIdx fun i param => (w.store.slot param, args[i]?.getD .undefined)
  let rest := c.fn.rest.toList.map fun rest => (w.store.slot rest, Value.array (args.drop c.fn.params.length))
  own ++ params ++ rest

/-- Runs the body of a function. -/
def body (w : World) (r : Evaluator) (fn : Lambda) (site : Site) : Eval Value :=
  match fn.body with
  | .block list => Eval.returning (statements w r list)
  | .concise value => r.expression value
  | .deferred _ => Eval.fail (.unsupported (.unexpandedCall fn.displayName)) site

/-- Calls a closure in the frames it was made in, with a new frame. The environment of the caller comes back however the
call ends. -/
def callClosure (w : World) (r : Evaluator) (c : Closure) (args : List Value) (site : Site) : Eval Value :=
  fun ⟨heap, outer, depth, trace, calls⟩ =>
    if w.maxCallDepth < depth + 1 then
      let calls := { fn := c.fn, site, depth, entered := false } :: calls
      Eval.fail (.recursionLimit c.fn.displayName (depth + 1) w.maxCallDepth) site { heap, env := outer, depth, trace, calls }
    else
      let (env, heap) := heap.push c.env
      let heap := (callBindings w c args).foldl (fun heap (name, value) => heap.define env name value) heap
      let calls := { fn := c.fn, site, depth, entered := true } :: calls
      match body w r c.fn site { heap, env, depth := depth + 1, trace, calls } with
      | .ok value m => .ok value { m with env := outer, depth := m.depth - 1 }
      | .error signal m => .error signal { m with env := outer, depth := m.depth - 1 }

/-- Calls a builtin. -/
def callBuiltin (b : Builtin) (args : List Value) : Eval Value :=
  match b with
  | .consoleLog => do
    Eval.write (" ".intercalate (args.map Value.text))
    return .undefined
  | .toText => return .str (Value.firstText args)
  | .toNumber => return .number ((args[0]?.map Value.toNumber).getD 0)

/-- Calls a value. -/
def call (w : World) (r : Evaluator) (callee : Value) (args : List Value) (site : Site) : Eval Value :=
  match callee with
  | .closure c => callClosure w r c args site
  | .builtin b => callBuiltin b args
  | _ => Eval.failType (.notAFunction callee.typeName) site

/-- Stores a value in a variable. A name without a binding becomes a variable of the outermost frame. -/
def assignIdent (w : World) (ident : Token) (value : Value) (site : Site) : Eval Unit :=
  match w.store.resolveIdent ident with
  | some binding =>
    if binding.kind.isRuntime then Eval.assignOr Heap.define binding.fresh value
    else Eval.failType (.assignToCompileTime ident.name) site
  | none => Eval.assignOr Heap.defineBase ident.name value

/-- Stores a value in a place. For a member the object is evaluated, changed, and stored back in turn. -/
def assign (w : World) (r : Evaluator) : Expression → Value → Eval Unit
  | .ident token site, value => assignIdent w token value site
  | .member object property site, value => do
    let base ← r.expression object
    let base ← Eval.lift (base.setMember property value) site
    if object.isPlace then assign w r object base else pure ()
  | .index object key site, value => do
    let base ← r.expression object
    let key ← r.expression key
    let base ← Eval.lift (base.setIndex key value) site
    if object.isPlace then assign w r object base else pure ()
  | target, _ => Eval.failType .invalidTarget target.site

/-- Stores a changed value back where it came from; the value of any other expression is dropped. -/
def storeBack (w : World) (r : Evaluator) (object : Expression) (value : Value) : Eval Unit :=
  if object.isPlace then assign w r object value else pure ()

/-- The function that an array method calls. -/
def callback (method : String) (args : List Value) (site : Site) : Eval Value :=
  match args with
  | f :: _ => if f.isCallable then pure f else Eval.failType (.needsFunction method) site
  | [] => Eval.failType (.needsFunction method) site

/-- The results of a function on the items and their places. -/
def mapItems (w : World) (r : Evaluator) (f : Value) (site : Site) : List Value → Nat → Eval (List Value)
  | [], _ => return []
  | item :: items, place => do
    let value ← call w r f [item, .ofCount place] site
    return value :: (← mapItems w r f site items (place + 1))

/-- The combined value of the items, from the left. -/
def reduceItems (w : World) (r : Evaluator) (f : Value) (site : Site) : List Value → Value → Eval Value
  | [], total => return total
  | item :: items, total => do
    let total ← call w r f [total, item] site
    reduceItems w r f site items total

/-- Calls a method of an array. `push` and `pop` store the changed array back in `object`. -/
def arrayCall (w : World) (r : Evaluator) (object : Expression) (items : List Value) (method : String)
    (args : List Value) (site : Site) : Eval Value :=
  match method with
  | "push" => do
    let items := items ++ args
    storeBack w r object (.array items)
    return .ofCount items.length
  | "pop" => do
    storeBack w r object (.array items.dropLast)
    return items.getLast?.getD .undefined
  | "map" => do
    let f ← callback method args site
    return .array (← mapItems w r f site items 0)
  | "filter" => do
    let f ← callback method args site
    let kept ← mapItems w r f site items 0
    return .array ((items.zip kept).filterMap fun (item, keep) => if keep.isTruthy then some item else none)
  | "forEach" => do
    let f ← callback method args site
    let _ ← mapItems w r f site items 0
    return .undefined
  | "reduce" => do
    let f ← callback method args site
    match args[1]?, items with
    | some start, _ => reduceItems w r f site items start
    | none, first :: items => reduceItems w r f site items first
    | none, [] => Eval.failType .emptyReduce site
  | _ => Eval.liftUnsupported (Value.arrayMethod items method args) site

/-- Calls a method of a transformer's context. -/
def contextCall (cursor : CursorId) (name : Token) (method : String) (site : Site) : Eval Value :=
  match method with
  | "next" => do
    let token := ((← get).heap.cursors[cursor]?.map Cursor.next).bind (·.1)
    modify fun m => { m with heap := m.heap.modifyCursor cursor fun c => c.next.2 }
    let value := match token with
      | some token => Value.fragment [token]
      | none => .undefined
    return .object [("done", .bool token.isNone), ("value", value)]
  | "name" => return .fragment [name]
  | "reset" => do
    modify fun m => { m with heap := m.heap.modifyCursor cursor Cursor.reset }
    return .undefined
  | _ => Eval.fail (.unsupported (.contextMethod method)) site

/-- Calls a method of a value that `object` gave. -/
def methodCall (w : World) (r : Evaluator) (object : Expression) (base : Value) (method : String) (args : List Value)
    (site : Site) : Eval Value :=
  match base with
  | .object fields => match Assoc.get? method fields with
    | some f => call w r f args site
    | none => Eval.failType (.noMethod method) site
  | .array items => arrayCall w r object items method args site
  | .str s => Eval.liftUnsupported (Value.textMethod s method args) site
  | .fragment tokens => Eval.lift (Value.fragmentMethod w.sources tokens method) site
  | .context cursor name => contextCall cursor name method site
  | _ => Eval.failType (.methodOn method base.typeName) site

/-- The type of an identifier's value; a name without a value has the type of undefined. -/
def typeOfIdent (w : World) (ident : Token) : Eval Value := do
  match lookup w (← get) ident with
  | .ok value => return .str value.typeOf
  | .error (.undefinedVariable _) => return .str Value.undefined.typeOf
  | .error fault => Eval.fail fault ident.site

/-- Evaluates the properties of an object; a repeated name keeps its first place and takes the last value. -/
def properties (r : Evaluator) : List Property → List (String × Value) → Eval (List (String × Value))
  | [], done => return done
  | property :: rest, done => do
    let value ← r.expression property.value
    properties r rest (Assoc.insert property.name value done)

/-- Evaluates an expression. -/
def expressionStep (w : World) (r : Evaluator) : Expression → Eval Value
  | .number n _ => return .number n
  | .str s _ => return .str s
  | .bool b _ => return .bool b
  | .null _ => return .null
  | .ident token _ => do Eval.lift (lookup w (← get) token) token.site
  | .array items _ => return .array (← items.mapM r.expression)
  | .object list _ => return .object (← properties r list [])
  | .lambda fn _ => close fn
  | .call (.member object property _) args site => do
    let base ← r.expression object
    let args ← args.mapM r.expression
    methodCall w r object base property args site
  | .call callee args site => do
    let callee ← r.expression callee
    let args ← args.mapM r.expression
    call w r callee args site
  | .member object property site => do Eval.liftType ((← r.expression object).member property) site
  | .index object key site => do
    let base ← r.expression object
    let key ← r.expression key
    Eval.liftType (base.index key) site
  | .unary .typeOf (.ident token _) _ => typeOfIdent w token
  | .unary operator operand _ => return (← r.expression operand).unary operator
  | .binary .and left right _ => do
    let left ← r.expression left
    if left.isTruthy then r.expression right else return left
  | .binary .or left right _ => do
    let left ← r.expression left
    if left.isTruthy then return left else r.expression right
  | .binary operator left right site => do
    let left ← r.expression left
    let right ← r.expression right
    Eval.lift (Value.binary operator left right) site
  | .conditional test consequent alternate _ => do
    if (← r.expression test).isTruthy then r.expression consequent else r.expression alternate
  | .assign target value _ => do
    let value ← r.expression value
    assign w r target value
    return value
  | .template parts _ _ => return .fragment (← Template.fill r.expression parts)

/-- Evaluates an optional expression; without one the value is undefined. -/
def optional (r : Evaluator) : Option Expression → Eval Value
  | some value => r.expression value
  | none => return .undefined

/-- Defines the variable of a declarator. -/
def declarator (w : World) (r : Evaluator) (d : Declarator) : Eval Unit := do
  Eval.define (w.store.slot d.binding) (← optional r d.init)

/-- Runs a statement. Declarations of transformers have no effect when code runs. -/
def statementStep (w : World) (r : Evaluator) : Statement → Eval Unit
  | .declaration d _ =>
    if d.kind.declaresTransformers then pure () else d.declarators.forM (declarator w r)
  | .function fn _ => declare w fn
  | .expression value _ => do let _ ← r.expression value
  | .return value _ => do throw (.returned (← optional r value))
  | .branch test consequent alternate _ => do
    if (← r.expression test).isTruthy then r.statement consequent
    else match alternate with
      | some alternate => r.statement alternate
      | none => pure ()
  | .loop test inner _ => Eval.loop (r.expression test) (r.statement inner) r.limit
  | .block list _ => Eval.inFrame (statements w r list)
  | .empty _ => pure ()
  | .throw value site => do
    let value ← r.expression value
    Eval.fail (.thrown value.text) site

end Evaluator

/-- The evaluator that goes at most `limit` levels deep into terms and calls, and as often around each loop. -/
def evaluator (w : World) : Nat → Evaluator
  | 0 => { expression := fun _ => throw .exhausted, statement := fun _ => throw .exhausted, limit := 0 }
  | limit + 1 => {
      expression := fun e => (evaluator w limit).expressionStep w e
      statement := fun s => (evaluator w limit).statementStep w s
      limit }

end Hygiene
