import Hygiene.Assoc
import Hygiene.Term.Basic

/-!
# Values

The values of running programs and of transformers. Assigning an array or an object copies it. What is shared are frames
and cursors; values refer to these by number.
-/

namespace Hygiene

/-- A frame, by the order in which frames are made. -/
abbrev FrameId := Nat

/-- The frames an expression can see. There is always an outermost one. -/
structure Environment where
  /-- The outermost frame. -/
  base : FrameId
  /-- The other frames, innermost first. -/
  inner : List FrameId := []
deriving Repr, DecidableEq

/-- The visible frames, innermost first. -/
def Environment.frames (env : Environment) : List FrameId := env.inner ++ [env.base]

/-- How many frames lie inside the outermost one. -/
def Environment.depth (env : Environment) : Nat := env.inner.length

/-- A function together with the frames it was made in. -/
structure Closure where
  fn : Lambda
  env : Environment

/-- The functions that are always there. -/
inductive Builtin where
  | consoleLog
  | toText
  | toNumber
deriving Repr, DecidableEq

/-- The name of a builtin. -/
def Builtin.name : Builtin → String
  | consoleLog => "console.log"
  | toText => "String"
  | toNumber => "Number"

/-- A cursor, by the order in which cursors are made. -/
abbrev CursorId := Nat

/-- A value. -/
inductive Value where
  | undefined
  | null
  | bool (value : Bool)
  | number (value : Float)
  | str (value : String)
  | array (items : List Value)
  /-- The fields in the order in which they were first set. -/
  | object (fields : List (String × Value))
  | closure (closure : Closure)
  | builtin (builtin : Builtin)
  /-- A piece of syntax: tokens. -/
  | fragment (tokens : List Token)
  /-- What a transformer reads its arguments from: a cursor, and the name the transformer was used under. -/
  | context (cursor : CursorId) (name : Token)

namespace Value

/-- The name of a value's type in messages. -/
def typeName : Value → String
  | undefined => "undefined"
  | null => "null"
  | bool _ => "boolean"
  | number _ => "number"
  | str _ => "string"
  | array _ => "array"
  | object _ => "object"
  | closure _ => "function"
  | builtin _ => "function"
  | fragment _ => "syntax"
  | context _ _ => "context"

/-- The type of a value as programs see it. -/
def typeOf : Value → String
  | undefined => "undefined"
  | bool _ => "boolean"
  | number _ => "number"
  | str _ => "string"
  | closure _ => "function"
  | builtin _ => "function"
  | null | array _ | object _ | fragment _ | context _ _ => "object"

/-- Whether a value counts as true. -/
def isTruthy : Value → Bool
  | undefined => false
  | null => false
  | bool b => b
  | number n => n != 0 && !n.isNaN
  | str s => !s.isEmpty
  | _ => true

/-- Whether a value can be called. -/
def isCallable : Value → Bool
  | closure _ => true
  | builtin _ => true
  | _ => false

/-- The text of a string value. -/
def str? : Value → Option String
  | str s => some s
  | _ => none

/-- The items of an array value. -/
def array? : Value → Option (List Value)
  | array items => some items
  | _ => none

/-- The tokens of a syntax value. -/
def fragment? : Value → Option (List Token)
  | fragment tokens => some tokens
  | _ => none

end Value

end Hygiene
