import Hygiene.Eval.Error

/-!
# Members of values

Reading a property or an indexed item of a value, and changing one. A change gives the changed value; whoever asked for
it stores it where the old one came from.
-/

namespace Hygiene.Value

/-- A count as a number. -/
def ofCount (n : Nat) : Value := number (Float.ofNat n)

/-- The value of a property. Only objects have fields; arrays and texts have a length. -/
def member (base : Value) (property : String) : Except TypeFault Value :=
  match base with
  | object fields => .ok ((Assoc.get? property fields).getD undefined)
  | array items => .ok (if property = "length" then ofCount items.length else undefined)
  | str s => .ok (if property = "length" then ofCount s.length else undefined)
  | undefined => .error (.readProperty property base.typeName)
  | null => .error (.readProperty property base.typeName)
  | _ => .ok undefined

/-- The item that a number selects: its integer part counts from 0, and negative numbers and NaN select nothing. -/
def item? {α : Type} (items : List α) (n : Float) : Option α :=
  if 0 ≤ n then items[Number.toNat64 n]? else none

/-- The value under a key. Arrays and texts are indexed by numbers; every other key is a property name. -/
def index (base key : Value) : Except TypeFault Value :=
  match base, key with
  | array items, number n => .ok ((item? items n).getD undefined)
  | str s, number n => .ok (((item? s.toList n).map fun c => str c.toString).getD undefined)
  | undefined, _ => .error (.readIndex base.typeName)
  | null, _ => .error (.readIndex base.typeName)
  | _, _ => member base key.text

/-- The object with a field set. -/
def setMember (base : Value) (property : String) (value : Value) : Except Fault Value :=
  match base with
  | object fields => .ok (object (Assoc.insert property value fields))
  | _ => .error (.wrongType (.setProperty property base.typeName))

/-- The items with one of them set; missing items before it are undefined. -/
def setItem (items : List Value) (place : Nat) (value : Value) : List Value :=
  (items ++ List.replicate (place + 1 - items.length) undefined).set place value

/-- The array or object with the value under a key set. Arrays take whole numbers that are not negative. -/
def setIndex (base key value : Value) : Except Fault Value :=
  match base, key with
  | array items, number n =>
    if 0 ≤ n ∧ Number.isWhole n then
      if Float.ofNat maxArrayLength ≤ n then .error (.indexOutOfRange n)
      else .ok (array (setItem items (Number.toNat64 n) value))
    else
      .error (.wrongType (.setIndex base.typeName key.typeName))
  | object fields, _ => .ok (object (Assoc.insert key.text value fields))
  | _, _ => .error (.wrongType (.setIndex base.typeName key.typeName))

end Hygiene.Value
