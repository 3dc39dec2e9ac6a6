import Hygiene.Assoc
import Hygiene.Scope.Mark

/-!
# Bindings and their resolution

A store holds the bindings of one run in the order in which they were made, with an index by name. An identifier refers
to the binding of its name with the largest scope set contained in its own; of equally large ones the most recent wins.
A binding may be hidden from identifiers that carry a given scope.

Scopes, fresh names and bindings are counted without bound here. Counters of 32 bits count the same as long as a run
makes fewer than `2 ^ 32` of each.
-/

namespace Hygiene

/-- What a binding stands for. -/
inductive BindingKind where
  /-- A variable, a function or a parameter. -/
  | declared
  /-- A transformer. -/
  | transformer
  /-- A runtime binding of another module. -/
  | runtimeImport (specifier exportName : String)
  /-- A runtime binding of another module that compile-time code may use. -/
  | compileTimeImport (specifier exportName : String)
deriving Repr, DecidableEq

namespace BindingKind

/-- Whether the binding stands for a transformer. -/
def isTransformer : BindingKind → Bool
  | transformer => true
  | _ => false

/-- Whether the binding exists only while runtime code runs. -/
def isRuntime : BindingKind → Bool
  | declared => true
  | runtimeImport _ _ => true
  | _ => false

end BindingKind

/-- A binding, by the order in which bindings are made. -/
abbrev BindingId := Nat

/-- A declared name and the scopes under which it was declared. -/
structure Binding where
  id : BindingId
  /-- The name as it was declared. -/
  name : String
  /-- The name at runtime. -/
  fresh : String
  kind : BindingKind
  scopes : ScopeSet
  /-- Identifiers with this scope never refer to the binding. -/
  hiddenFrom : Option ScopeId := none
  site : Site

namespace Binding

/-- Whether the binding has a name of its own at runtime. -/
def isRenamed (b : Binding) : Bool := b.fresh ≠ b.name

/-- Whether an identifier of the same name with these scopes may refer to the binding. -/
def admits (b : Binding) (scopes : ScopeSet) : Bool := b.scopes.isSubset scopes && !(b.hiddenFrom.any scopes.contains)

/-- A binding as it is shown. -/
def idText (id : BindingId) : String := "b" ++ toString id

end Binding

/-- The numbers of the bindings of a name, in the order in which they were made. -/
def numbersOf (bindings : Array Binding) (name : String) : List BindingId :=
  (List.range bindings.size).filter fun id => bindings[id]?.any (·.name = name)

theorem numbersOf_empty (name : String) :
    (Assoc.get? name ([] : List (String × List BindingId))).getD [] = numbersOf #[] name := rfl

/-- The scopes, fresh names and bindings made so far, and the numbers of the bindings of each name. -/
structure Store where
  nextScope : ScopeId := 0
  nextFresh : Nat := 0
  bindings : Array Binding := #[]
  byName : List (String × List BindingId) := []
  indexed : ∀ name, (Assoc.get? name byName).getD [] = numbersOf bindings name := by exact numbersOf_empty

namespace Store

variable {bindings : Array Binding} {byName : List (String × List BindingId)}

/-- A new binding comes last among those of its name. -/
theorem indexed_push (h : ∀ name, (Assoc.get? name byName).getD [] = numbersOf bindings name) (b : Binding) (name : String) :
    (Assoc.get? name (Assoc.insert b.name ((Assoc.get? b.name byName).getD [] ++ [bindings.size]) byName)).getD [] =
      numbersOf (bindings.push b) name := by
  have hold : (List.range bindings.size).filter (fun id => (bindings.push b)[id]?.any (·.name = name)) =
      numbersOf bindings name := by
    refine List.filter_congr fun id hid => ?_
    rw [Array.getElem?_push, if_neg (Nat.ne_of_lt (List.mem_range.1 hid))]
  have hnew : numbersOf (bindings.push b) name = numbersOf bindings name ++ if b.name = name then [bindings.size] else [] := by
    rw [numbersOf, Array.size_push, List.range_succ, List.filter_append, hold]
    simp [List.filter_cons]
  rw [Assoc.get?_insert, hnew, h]
  by_cases hname : b.name = name
  · simp [hname]
  · simp [hname, h]

/-- Bindings that are changed but keep their names keep their numbers. -/
theorem indexed_modify (h : ∀ name, (Assoc.get? name byName).getD [] = numbersOf bindings name) (id : BindingId)
    {f : Binding → Binding} (hf : ∀ b, (f b).name = b.name) (name : String) :
    (Assoc.get? name byName).getD [] = numbersOf (bindings.modify id f) name := by
  rw [h, numbersOf, numbersOf, Array.size_modify]
  refine List.filter_congr fun i _ => ?_
  rw [Array.getElem?_modify]
  split <;> cases bindings[i]? <;> simp [hf]

/-- A scope that was never used before. -/
def freshScope (s : Store) : ScopeId × Store := (s.nextScope, { s with nextScope := s.nextScope + 1 })

/-- A name that no text can contain, because of its percent sign, and that was never made before. -/
def freshName (s : Store) (name : String) : String × Store :=
  let n := s.nextFresh + 1
  (name ++ "%" ++ toString n, { s with nextFresh := n })

/-- Adds a binding of an identifier under its scopes. Declarations get a fresh name, imports keep theirs. -/
def bind (s : Store) (ident : Token) (kind : BindingKind) (rename : Bool) : BindingId × Store :=
  let name := ident.name
  let (fresh, s) := if rename then s.freshName name else (name, s)
  let id := s.bindings.size
  let binding : Binding := { id, name, fresh, kind, scopes := ident.scopes, site := ident.site }
  (id, { s with
    bindings := s.bindings.push binding
    byName := Assoc.insert name ((Assoc.get? name s.byName).getD [] ++ [id]) s.byName
    indexed := indexed_push s.indexed binding })

/-- Hides a binding from the identifiers that carry a scope. -/
def hide (s : Store) (id : BindingId) (scope : ScopeId) : Store :=
  { s with
    bindings := s.bindings.modify id fun b => { b with hiddenFrom := some scope }
    indexed := indexed_modify s.indexed id fun _ => rfl }

/-- The better of two bindings: the one with more scopes, and the later one when they have equally many. -/
def better (best : Option Binding) (b : Binding) : Option Binding :=
  match best with
  | none => some b
  | some current => if b.scopes.size < current.scopes.size then some current else some b

/-- The bindings of a name, in the order in which they were made. -/
def named (s : Store) (name : String) : List Binding :=
  ((Assoc.get? name s.byName).getD []).filterMap (s.bindings[·]?)

/-- The binding that an identifier with this name and these scopes refers to. -/
def resolve (s : Store) (name : String) (scopes : ScopeSet) : Option Binding :=
  ((s.named name).filter (·.admits scopes)).foldl better none

/-- The binding that an identifier refers to. -/
def resolveIdent (s : Store) (ident : Token) : Option Binding :=
  ident.ident?.bind fun name => s.resolve name ident.scopes

/-- The binding with the given number. -/
def binding? (s : Store) (id : BindingId) : Option Binding := s.bindings[id]?

/-- How many bindings there are. -/
def count (s : Store) : Nat := s.bindings.size

/-- Whether a binding was made after there were `mark` bindings. -/
def isNewer (id : BindingId) (mark : Nat) : Bool := mark ≤ id

/-- The variable slot an identifier denotes: the fresh name of its binding, or its own name when it has none. -/
def slot (s : Store) (ident : Token) : String :=
  match s.resolveIdent ident with
  | some binding => binding.fresh
  | none => ident.name

end Store

end Hygiene
