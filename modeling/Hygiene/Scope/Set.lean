import Hygiene.Search

/-!
# Scope sets

A scope is a number; a scope set is a finite set of scopes, held as a strictly increasing list so that equal sets are
equal lists. A scope is looked for by halving the list.
-/

namespace Hygiene

/-- A scope, by the order in which scopes are made. -/
abbrev ScopeId := Nat

/-- A finite set of scopes. -/
structure ScopeSet where
  toList : List ScopeId
  increasing : toList.Pairwise (· < ·)
deriving DecidableEq

namespace ScopeSet

/-- The set without scopes. -/
def empty : ScopeSet := ⟨[], .nil⟩

/-- Where a scope stands in the set, or where it would stand. -/
def place (s : ScopeSet) (scope : ScopeId) : Except Nat Nat := binarySearch s.toList scope

/-- Putting a scope where it would stand keeps the list increasing. -/
theorem increasing_put (s : ScopeSet) {scope : ScopeId} {i : Nat} (h : s.place scope = .error i) :
    (s.toList.take i ++ scope :: s.toList.drop i).Pairwise (· < ·) := by
  obtain ⟨-, hbelow, habove⟩ : Sought s.toList scope (.error i) := h ▸ sought_binarySearch s.increasing
  obtain ⟨htake, hdrop, hparts⟩ := List.pairwise_append.1 ((s.toList.take_append_drop i).symm ▸ s.increasing)
  refine List.pairwise_append.2 ⟨htake, List.pairwise_cons.2 ⟨habove, hdrop⟩, fun x hx y hy => ?_⟩
  rcases List.mem_cons.1 hy with rfl | hy
  · exact hbelow x hx
  · exact hparts x hx y hy

/-- The set with a scope put where it would stand. -/
def putAt (s : ScopeSet) {scope : ScopeId} {i : Nat} (h : s.place scope = .error i) : ScopeSet :=
  ⟨s.toList.take i ++ scope :: s.toList.drop i, s.increasing_put h⟩

/-- The set without the scope at a place. -/
def removeAt (s : ScopeSet) (i : Nat) : ScopeSet := ⟨s.toList.eraseIdx i, s.increasing.sublist (s.toList.eraseIdx_sublist i)⟩

/-- Whether a scope is in the set. -/
def contains (s : ScopeSet) (scope : ScopeId) : Bool := (s.place scope).isOk

/-- The set with a scope added. -/
def insert (s : ScopeSet) (scope : ScopeId) : ScopeSet :=
  match h : s.place scope with
  | .ok _ => s
  | .error _ => s.putAt h

/-- The set with a scope removed. -/
def erase (s : ScopeSet) (scope : ScopeId) : ScopeSet :=
  match s.place scope with
  | .ok i => s.removeAt i
  | .error _ => s

/-- The set with a scope added if it is absent and removed if it is present. -/
def flip (s : ScopeSet) (scope : ScopeId) : ScopeSet :=
  match h : s.place scope with
  | .ok i => s.removeAt i
  | .error _ => s.putAt h

/-- The set of the scopes in a list. -/
def ofList (scopes : List ScopeId) : ScopeSet := scopes.foldl insert empty

/-- Whether every scope of the set is in the other. -/
def isSubset (s t : ScopeSet) : Bool := s.toList.all t.contains

/-- The number of scopes. -/
def size (s : ScopeSet) : Nat := s.toList.length

/-- A scope as it is shown. -/
def scopeText (scope : ScopeId) : String := "s" ++ toString scope

/-- The set as it is shown. -/
def text (s : ScopeSet) : String := "\x7b" ++ ", ".intercalate (s.toList.map scopeText) ++ "\x7d"

end ScopeSet

end Hygiene
