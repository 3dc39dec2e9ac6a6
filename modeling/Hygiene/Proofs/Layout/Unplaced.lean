import Hygiene.Expand.Session
import Hygiene.Proofs.Scope.Resolve
import Hygiene.Proofs.Token.Bare

/-!
# Tokens without their sites

Two texts of one program differ in where its tokens were written. `HasSites.unplaced` puts the unknown site in the place
of every site, in tokens and in the bindings of a store. What a token is and what it resolves to can be seen without
sites.
-/

namespace Hygiene

/-- What carries sites, and the same without them. -/
class HasSites (α : Type) where
  /-- The same, with the unknown site in the place of every site. -/
  unplaced : α → α

open HasSites (unplaced)

section Generic

variable {α β : Type} [HasSites α] [HasSites β]

instance : HasSites Site := ⟨fun _ => .unknown⟩

instance : HasSites (α × β) := ⟨Prod.map unplaced unplaced⟩

instance : HasSites (List α) := ⟨List.map unplaced⟩

instance : HasSites (Option α) := ⟨Option.map unplaced⟩

@[simp] theorem unplaced_cons (a : α) (l : List α) : unplaced (a :: l) = unplaced a :: unplaced l := rfl

@[simp] theorem unplaced_none : unplaced (none : Option α) = none := rfl

theorem unplaced_list (l : List α) : unplaced l = l.map unplaced := rfl

end Generic

/-! ### Tokens -/

/-- The mark with the unknown site. -/
def Mark.unplaced (m : Mark) : Mark := { m with site := .unknown }

namespace Token

instance : HasSites Token := ⟨Tree.map Mark.unplaced⟩

theorem unplaced_eq (t : Token) : unplaced t = t.map Mark.unplaced := rfl

@[simp] theorem unplaced_atom (mark : Mark) (a : Atom) : unplaced (Tree.atom mark a : Token) = .atom mark.unplaced a := by
  rw [unplaced_eq, Tree.map]

@[simp] theorem unplaced_nest (mark : Mark) (shape : Nest) (ts : List Token) :
    unplaced (Tree.nest mark shape ts : Token) = .nest mark.unplaced shape (unplaced ts) := by
  rw [unplaced_eq, Tree.map, Tree.mapAll_eq]
  rfl

variable (t : Token)

@[simp] theorem unplaced_unplaced : unplaced (unplaced t) = unplaced t := by
  rw [unplaced_eq, unplaced_eq, Tree.map_map]
  rfl

@[simp] theorem site_unplaced : (unplaced t).site = .unknown := by
  rw [site, unplaced_eq, Tree.note_map]
  rfl

@[simp] theorem scopes_unplaced : (unplaced t).scopes = t.scopes := by
  rw [scopes, unplaced_eq, Tree.note_map]
  rfl

@[simp] theorem ident?_unplaced : (unplaced t).ident? = t.ident? := Tree.ident?_map _ t

@[simp] theorem name_unplaced : (unplaced t).name = t.name := by rw [Tree.name, Tree.name, ident?_unplaced]

@[simp] theorem isWord_unplaced (word : String) : (unplaced t).isWord word = t.isWord word := by
  rw [Tree.isWord, Tree.isWord, ident?_unplaced]

@[simp] theorem isPunct_unplaced (p : String) : (unplaced t).isPunct p = t.isPunct p := Tree.isPunct_map _ t p

@[simp] theorem text_unplaced : (unplaced t).text = t.text := Tree.text_map _ t

/-- A change of scopes is the same without sites. -/
theorem unplaced_mapScopes (f : ScopeSet → ScopeSet) :
    unplaced (t.map (Mark.mapScopes f)) = (unplaced t).map (Mark.mapScopes f) := by
  rw [unplaced_eq, unplaced_eq, Tree.map_map, Tree.map_map]
  rfl

@[simp] theorem addScope_unplaced (scope : ScopeId) : (unplaced t).addScope scope = unplaced (t.addScope scope) :=
  (unplaced_mapScopes t _).symm

end Token

/-! ### Streams and stores -/

instance : HasSites Stream := ⟨fun stream => ⟨unplaced stream.before, unplaced stream.after⟩⟩

instance : HasSites Binding := ⟨fun b => { b with site := .unknown }⟩

theorem unplaced_binding (b : Binding) : unplaced b = { b with site := .unknown } := rfl

namespace Store

variable (store : Store)

/-- Bindings are found under their names without sites too. -/
theorem indexed_unplaced (name : String) :
    (Assoc.get? name store.byName).getD [] = numbersOf (store.bindings.map unplaced) name := by
  rw [store.indexed, numbersOf, numbersOf, Array.size_map]
  refine List.filter_congr fun id _ => ?_
  rw [Array.getElem?_map, Option.any_map]
  rfl

instance : HasSites Store :=
  ⟨fun store => { store with bindings := store.bindings.map unplaced, indexed := indexed_unplaced store }⟩

theorem unplaced_store : unplaced store =
    { store with bindings := store.bindings.map unplaced, indexed := indexed_unplaced store } := rfl

theorem toList_bindings_unplaced : (unplaced store).bindings.toList = unplaced store.bindings.toList := Array.toList_map

/-- Which binding an identifier refers to can be seen without sites. -/
theorem resolve_unplaced (name : String) (scopes : ScopeSet) :
    (unplaced store).resolve name scopes = unplaced (store.resolve name scopes) := by
  have hfold : ∀ (list : List Binding) (best : Option Binding),
      (unplaced list).foldl better (unplaced best) = unplaced (list.foldl better best) := by
    intro list
    induction list with
    | nil => exact fun _ => rfl
    | cons b list ih =>
      intro best
      have hbetter : better (unplaced best) (unplaced b) = unplaced (better best b) := by
        cases best with
        | none => rfl
        | some current =>
          have hsizes : better (unplaced (some current)) (unplaced b) =
              if b.scopes.size < current.scopes.size then some (unplaced current) else some (unplaced b) := rfl
          rw [hsizes, better]
          split <;> rfl
      rw [unplaced_cons, List.foldl_cons, List.foldl_cons, hbetter, ih]
  rw [resolve_eq, resolve_eq, toList_bindings_unplaced, unplaced_list, List.filter_map, ← unplaced_none, ← hfold]
  rfl

theorem resolveIdent_unplaced (ident : Token) :
    (unplaced store).resolveIdent (unplaced ident) = unplaced (store.resolveIdent ident) := by
  unfold resolveIdent
  rw [Token.ident?_unplaced, Token.scopes_unplaced]
  cases ident.ident? with
  | none => rfl
  | some name => exact resolve_unplaced store name _

theorem bind_unplaced (ident : Token) (kind : BindingKind) (rename : Bool) :
    (unplaced store).bind (unplaced ident) kind rename = ((store.bind ident kind rename).1, unplaced (store.bind ident kind rename).2) := by
  cases rename <;> simp [bind, unplaced_store, freshName, unplaced_binding]

end Store

end Hygiene
