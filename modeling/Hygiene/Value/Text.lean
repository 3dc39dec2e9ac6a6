import Hygiene.Number.Decimal
import Hygiene.Number.Literal
import Hygiene.Text.Blank
import Hygiene.Value.Basic

/-!
# Values as text and as numbers

How a value is shown, and the number it stands for.
-/

namespace Hygiene.Value

mutual

/-- A value as text. -/
def text : Value → String
  | undefined => "undefined"
  | null => "null"
  | bool b => if b then "true" else "false"
  | number n => Number.numberText n
  | str s => s
  | array items => ",".intercalate (itemTexts items)
  | object _ => "[object Object]"
  | closure c => "function " ++ c.fn.displayName ++ "() \x7b ... \x7d"
  | builtin b => "function " ++ b.name ++ "() \x7b [native code] \x7d"
  | fragment tokens => "#`" ++ Tree.textAll tokens ++ "`"
  | context _ name => "[context " ++ name.text ++ "]"

/-- The items of an array as texts; undefined and null are empty. -/
def itemTexts : List Value → List String
  | [] => []
  | undefined :: rest => "" :: itemTexts rest
  | null :: rest => "" :: itemTexts rest
  | item :: rest => text item :: itemTexts rest

end

/-- The number a value stands for by itself. -/
def number? : Value → Option Float
  | number n => some n
  | bool b => some (if b then 1 else 0)
  | null => some 0
  | str s => Number.readDecimal? (Text.trim s.toList)
  | _ => none

/-- Not a number. -/
def notANumber : Float := Float.ofBits 0x7ff8000000000000

/-- The number an operator takes a value for: blank text is zero, and what stands for no number is NaN. -/
def toNumber (v : Value) : Float :=
  match v with
  | str s => if (Text.trim s.toList).isEmpty then 0 else (number? v).getD notANumber
  | _ => (number? v).getD notANumber

end Hygiene.Value
