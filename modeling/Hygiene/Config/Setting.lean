import Hygiene.Assoc

/-!
# Settings

The value of a setting is an integer, a truth value, a string, a list, or a table by key. A header opens a table, and a
key with dots opens those on its way. How a table came to be decides what may still be added to it, so that no part of a
file reopens what another has finished.
-/

namespace Hygiene

/-- What is wrong with a configuration file. -/
inductive ConfigFault where
  | malformedLine (number : Nat)
  | repeatedKey (key : String)
  | unknownKey (key : String)
  | wrongValue (key : String)
deriving Repr, DecidableEq

/-- The message for a configuration file. -/
def ConfigFault.message : ConfigFault → String
  | malformedLine number => "line " ++ toString number ++ " is not a setting"
  | repeatedKey key => "duplicate key `" ++ key ++ "`"
  | unknownKey key => "unknown field `" ++ key ++ "`"
  | wrongValue key => "invalid value for `" ++ key ++ "`"

/-- How a table came to be. -/
inductive TableOrigin where
  /-- A header names the table. -/
  | header
  /-- A header names a table inside it. -/
  | implied
  /-- A key with dots goes through it. -/
  | dotted
  /-- Braces hold all of it. -/
  | braces
deriving Repr, DecidableEq

/-- The value of a setting. -/
inductive Setting where
  | integer (value : Int)
  | truth (value : Bool)
  | str (value : String)
  /-- The list without items, which is the only list that a setting can take. -/
  | emptyList
  | table (origin : TableOrigin) (entries : List (String × Setting))
deriving Repr

/-- Settings by key. -/
abbrev SettingTable := List (String × Setting)

/-- The keys that lead to a setting: those of the tables on the way, and the last one. -/
structure KeyPath where
  way : List String
  last : String
deriving Repr, DecidableEq

/-- All keys of a path in order. -/
def KeyPath.keys (path : KeyPath) : List String := path.way ++ [path.last]

namespace SettingTable

/-- Changes the table that keys lead to. Given what stands under a key, `enter` says which table the key leads into. -/
def change (enter : Option Setting → Option (TableOrigin × SettingTable))
    (f : SettingTable → Except ConfigFault SettingTable) : List String → SettingTable → Except ConfigFault SettingTable
  | [], table => f table
  | key :: keys, table =>
    match enter (Assoc.get? key table) with
    | none => .error (.repeatedKey key)
    | some (origin, inner) => do
      let inner ← change enter f keys inner
      return Assoc.insert key (.table origin inner) table

/-- A header leads through every table but one in braces, and opens those that are not there. -/
def enterByHeader : Option Setting → Option (TableOrigin × SettingTable)
  | none => some (.implied, [])
  | some (.table .braces _) => none
  | some (.table origin entries) => some (origin, entries)
  | some _ => none

/-- A key with dots leads only through tables of such keys, and opens those that are not there. -/
def enterByDots : Option Setting → Option (TableOrigin × SettingTable)
  | none => some (.dotted, [])
  | some (.table .dotted entries) => some (.dotted, entries)
  | some _ => none

/-- The table with a header read. A header names a table that is new or has only been implied. -/
def declare (path : KeyPath) : SettingTable → Except ConfigFault SettingTable :=
  change enterByHeader (fun table =>
    match Assoc.get? path.last table with
    | none => .ok (Assoc.insert path.last (.table .header []) table)
    | some (.table .implied entries) => .ok (Assoc.insert path.last (.table .header entries) table)
    | some _ => .error (.repeatedKey path.last)) path.way

/-- The table with a value put under a path where nothing stands. -/
def put (path : KeyPath) (value : Setting) : SettingTable → Except ConfigFault SettingTable :=
  change enterByDots (fun table =>
    if Assoc.contains path.last table then .error (.repeatedKey path.last)
    else .ok (Assoc.insert path.last value table)) path.way

/-- The table with a value put under a path below the table that a header has named. -/
def putBelow (header : List String) (path : KeyPath) (value : Setting) :
    SettingTable → Except ConfigFault SettingTable :=
  change enterByHeader (put path value) header

end SettingTable

namespace Setting

/-- Whether the value is a list or table that holds nothing. -/
def isVoid : Setting → Bool
  | emptyList => true
  | table _ entries => entries.isEmpty
  | _ => false

/-- The name that a value chooses: a string is the name itself, and a table chooses its only key when nothing stands
under it. -/
def choice? : Setting → Option String
  | str name => some name
  | table _ [(name, value)] => if value.isVoid then some name else none
  | _ => none

/-- The count that a value gives. -/
def count? : Setting → Option Nat
  | integer n => if 0 ≤ n then some n.toNat else none
  | _ => none

/-- The truth value that a value gives. -/
def truth? : Setting → Option Bool
  | truth b => some b
  | _ => none

end Setting

end Hygiene
