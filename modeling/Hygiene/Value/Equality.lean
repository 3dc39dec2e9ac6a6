import Hygiene.Value.Text

/-!
# Equality of values

Strict equality compares arrays and objects by their parts, whatever the order of fields, functions by the lambda they
were made from, and contexts by their cursor. Loose equality also identifies null with undefined and compares numbers,
texts and truth values as numbers.
-/

namespace Hygiene

/-- Whether two atoms are the same. -/
def Atom.same : Atom → Atom → Bool
  | .ident a, .ident b => a == b
  | .punct a, .punct b => a == b
  | .number x a, .number y b => x == y && a == b
  | .str a, .str b => a == b
  | _, _ => false

mutual

/-- Whether two tokens are the same, their marks included. -/
def Tree.same : Token → Token → Bool
  | .atom m a, .atom n b => m == n && a.same b
  | .nest m s xs, .nest n t ys => m == n && s == t && Tree.sameAll xs ys
  | _, _ => false

/-- Whether two sequences of tokens are the same. -/
def Tree.sameAll : List Token → List Token → Bool
  | [], [] => true
  | x :: xs, y :: ys => Tree.same x y && Tree.sameAll xs ys
  | _, _ => false

end

namespace Value

mutual

/-- Strict equality. -/
def strictEq : Value → Value → Bool
  | undefined, undefined => true
  | null, null => true
  | bool a, bool b => a == b
  | number a, number b => a == b
  | str a, str b => a == b
  | array xs, array ys => strictEqAll xs ys
  | object fs, object gs => fs.length == gs.length && strictEqFields fs gs
  | fragment xs, fragment ys => Tree.sameAll xs ys
  | closure a, closure b => a.fn.id == b.fn.id
  | builtin a, builtin b => a == b
  | context a _, context b _ => a == b
  | _, _ => false

/-- Strict equality of items, place by place. -/
def strictEqAll : List Value → List Value → Bool
  | [], [] => true
  | x :: xs, y :: ys => strictEq x y && strictEqAll xs ys
  | _, _ => false

/-- Whether each field has an equal one under the same name in the other object. -/
def strictEqFields : List (String × Value) → List (String × Value) → Bool
  | [], _ => true
  | (key, value) :: rest, others =>
    (match Assoc.get? key others with
      | some other => strictEq value other
      | none => false) && strictEqFields rest others

end

/-- Whether a value is undefined or null. -/
def isNothing : Value → Bool
  | undefined => true
  | null => true
  | _ => false

/-- The types that loose equality compares as numbers: number, text and truth value. -/
def plainRank : Value → Option Nat
  | number _ => some 0
  | str _ => some 1
  | bool _ => some 2
  | _ => none

/-- Loose equality. -/
def looseEq (a b : Value) : Bool :=
  if a.isNothing || b.isNothing then a.isNothing && b.isNothing
  else match a.plainRank, b.plainRank with
    | some i, some j => if i = j then a.strictEq b else a.toNumber == b.toNumber
    | _, _ => a.strictEq b

end Value

end Hygiene
