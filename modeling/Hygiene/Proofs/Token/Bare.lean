import Hygiene.Scope.Mark

/-!
# Tokens without their scopes

What a token is does not depend on the scopes that it carries. The bare token has no scopes at all, so two tokens with
the same bare token differ in their scopes only.
-/

namespace Hygiene

namespace Tree

variable {α β : Type} (f : α → β) (t : Tree α)

theorem mapAll_eq (ts : List (Tree α)) : mapAll f ts = ts.map (map f) := by
  induction ts with
  | nil => rw [mapAll, List.map_nil]
  | cons t ts ih => rw [mapAll, ih, List.map_cons]

theorem ident?_map : (t.map f).ident? = t.ident? := by
  cases t with
  | atom note a =>
    rw [map]
    cases a <;> rfl
  | nest note shape children =>
    rw [map]
    rfl

theorem isIdent_map : (t.map f).isIdent = t.isIdent := by
  unfold isIdent
  rw [ident?_map]

theorem isPunct_map (p : String) : (t.map f).isPunct p = t.isPunct p := by
  cases t with
  | atom note a =>
    rw [map]
    cases a <;> rfl
  | nest note shape children =>
    rw [map]
    rfl

theorem note_map : (t.map f).note = f t.note := by
  cases t <;> rw [map] <;> rfl

mutual

theorem map_map {γ : Type} (f : α → β) (g : β → γ) : (t : Tree α) → (t.map f).map g = t.map (g ∘ f)
  | atom note a => by rw [map, map, map, Function.comp]
  | nest note shape children => by rw [map, map, map, mapAll_mapAll, Function.comp]

theorem mapAll_mapAll {γ : Type} (f : α → β) (g : β → γ) : (ts : List (Tree α)) → mapAll g (mapAll f ts) = mapAll (g ∘ f) ts
  | [] => by rw [mapAll, mapAll, mapAll]
  | t :: ts => by rw [mapAll, mapAll, mapAll, map_map, mapAll_mapAll]

end

theorem textAll_cons_cons (t t' : Tree α) (ts : List (Tree α)) :
    textAll (t :: t' :: ts) = t.text ++ " " ++ textAll (t' :: ts) := by
  rw [textAll]
  exact nofun

mutual

theorem text_map : (t : Tree α) → (t.map f).text = t.text
  | atom _ _ => by rw [map, text, text]
  | nest _ _ children => by rw [map, text, text, textAll_mapAll children]

theorem textAll_mapAll : (ts : List (Tree α)) → textAll (mapAll f ts) = textAll ts
  | [] => by rw [mapAll, textAll, textAll]
  | [t] => by rw [mapAll, mapAll, textAll, textAll, text_map t]
  | t :: t' :: ts => by
    have hrest := textAll_mapAll (t' :: ts)
    rw [mapAll] at hrest ⊢
    rw [mapAll, textAll_cons_cons, textAll_cons_cons, text_map t, hrest]

end

end Tree

namespace Token

theorem scopes_addScope (scope : ScopeId) (t : Token) : (t.addScope scope).scopes = t.scopes.insert scope := by
  unfold scopes addScope
  rw [Tree.note_map]
  rfl

theorem isIdent_addScope (scope : ScopeId) (t : Token) : (t.addScope scope).isIdent = t.isIdent := Tree.isIdent_map _ t

/-- The token without scopes. -/
def bare (t : Token) : Token := t.map (Mark.mapScopes fun _ => .empty)

theorem bare_atom (mark : Mark) (a : Atom) : bare (.atom mark a) = .atom (mark.mapScopes fun _ => .empty) a := by
  rw [bare, Tree.map]

theorem bare_nest (mark : Mark) (shape : Nest) (ts : List Token) :
    bare (.nest mark shape ts) = .nest (mark.mapScopes fun _ => .empty) shape (ts.map bare) := by
  rw [bare, Tree.map, Tree.mapAll_eq]
  rfl

/-- Changing scopes does not change the bare token. -/
theorem bare_map (f : ScopeSet → ScopeSet) (t : Token) : bare (t.map (Mark.mapScopes f)) = bare t := by
  unfold bare
  rw [Tree.map_map]
  rfl

end Token

end Hygiene
