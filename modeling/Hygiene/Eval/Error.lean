import Hygiene.Value.Text

/-!
# Faults of running code

What can go wrong while code runs, and the signals by which an evaluation ends early.
-/

namespace Hygiene

/-- A value of the wrong type. -/
inductive TypeFault where
  | transformerAsValue (name : String)
  | assignToCompileTime (name : String)
  | setProperty (property typeName : String)
  | setIndex (typeName keyType : String)
  | invalidTarget
  | notAFunction (typeName : String)
  | noMethod (method : String)
  | methodOn (method typeName : String)
  | needsFunction (method : String)
  | emptyReduce
  | innerOfNonDelimiter
  | readProperty (property typeName : String)
  | readIndex (typeName : String)
  | unquote (typeName : String)
deriving Repr, DecidableEq

/-- The message for a value of the wrong type. -/
def TypeFault.message : TypeFault → String
  | transformerAsValue name => "macro '" ++ name ++ "' cannot be used as a value"
  | assignToCompileTime name => "cannot assign to compile-time binding '" ++ name ++ "'"
  | setProperty property typeName => "cannot set property '" ++ property ++ "' on " ++ typeName
  | setIndex typeName keyType => "cannot index-assign " ++ typeName ++ " with " ++ keyType
  | invalidTarget => "invalid assignment target"
  | notAFunction typeName => typeName ++ " is not a function"
  | noMethod method => "object has no method '" ++ method ++ "'"
  | methodOn method typeName => "cannot call method '" ++ method ++ "' on " ++ typeName
  | needsFunction method => "Array." ++ method ++ "() requires a function argument"
  | emptyReduce => "reduce of empty array with no initial value"
  | innerOfNonDelimiter => "inner() called on syntax that is not a delimiter"
  | readProperty property typeName => "cannot read property '" ++ property ++ "' of " ++ typeName
  | readIndex typeName => "cannot index " ++ typeName
  | unquote typeName => "cannot unquote a value of type " ++ typeName

/-- Something that code cannot do. -/
inductive Unsupported where
  | unexpandedCall (function : String)
  | arrayMethod (method : String)
  | syntaxMethod (method : String)
  | contextMethod (method : String)
  | stringMethod (method : String)
  | binaryOperator (operator : String)
deriving Repr, DecidableEq

/-- The words for something that code cannot do. -/
def Unsupported.operation : Unsupported → String
  | unexpandedCall function => "calling '" ++ function ++ "' before its body was expanded"
  | arrayMethod method => "Array." ++ method ++ "()"
  | syntaxMethod method => "syntax." ++ method ++ "()"
  | contextMethod method => "ctx." ++ method ++ "()"
  | stringMethod method => "String." ++ method ++ "()"
  | binaryOperator operator => "binary operator '" ++ operator ++ "'"

/-- The most items an array can grow to by assignment. -/
def maxArrayLength : Nat := Nat.pow 2 24

/-- What went wrong while code ran. -/
inductive Fault where
  /-- An identifier without a value. -/
  | undefinedVariable (name : String)
  | wrongType (fault : TypeFault)
  /-- A thrown value, as text. -/
  | thrown (value : String)
  | indexOutOfRange (index : Float)
  | recursionLimit (function : String) (depth limit : Nat)
  | unsupported (operation : Unsupported)

namespace Fault

/-- The message for a fault. -/
def message : Fault → String
  | undefinedVariable name => "'" ++ name ++ "' is not defined"
  | wrongType fault => "type error: " ++ fault.message
  | thrown value => "uncaught exception: " ++ value
  | indexOutOfRange index =>
    "array index " ++ Number.positionalText index ++ " is out of range (arrays hold at most " ++
      toString maxArrayLength ++ " items)"
  | recursionLimit function depth limit =>
    "'" ++ function ++ "' exceeded the call depth limit: depth " ++ toString depth ++ " > max " ++ toString limit
  | unsupported operation => "unsupported operation: " ++ operation.operation

/-- The advice for a fault. -/
def help : Fault → Option String
  | undefinedVariable name =>
    some ("declare '" ++ name ++ "' before use, or import it `for syntax` if a macro needs it")
  | recursionLimit function _ _ =>
    some ("check '" ++ function ++ "' for unbounded recursion, or raise `max_call_depth`")
  | _ => none

end Fault

/-- How an evaluation ends other than with a value. -/
inductive Signal where
  | fault (fault : Fault) (site : Site)
  /-- A return statement, on its way to the call. -/
  | returned (value : Value)
  | broke
  | continued
  /-- The evaluation was not given enough steps. -/
  | exhausted

namespace Signal

/-- A fault of the given type at a site. -/
def typeFault (fault : TypeFault) (site : Site) : Signal := .fault (.wrongType fault) site

/-- The message for a signal that reaches the outside. -/
def message : Signal → String
  | fault f _ => f.message
  | returned _ => "return outside of a function"
  | broke => "break outside of a loop"
  | continued => "continue outside of a loop"
  | exhausted => "the evaluation was not finished"

/-- The site of a signal. -/
def site : Signal → Site
  | fault _ s => s
  | _ => .unknown

/-- The advice for a signal. -/
def help : Signal → Option String
  | fault f _ => f.help
  | _ => none

/-- Whether the signal only directs the flow of control. -/
def isControlFlow : Signal → Bool
  | returned _ => true
  | broke => true
  | continued => true
  | _ => false

end Signal

end Hygiene
