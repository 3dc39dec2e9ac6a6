import Hygiene.Expand.Invoke
import Hygiene.Proofs.Scope.Set

/-!
# The pieces of tokens

A piece is a mark of a token or of one of its parts, with what it marks. All operations on scopes treat every piece in
the same way, so what they do to tokens follows from what they do to a piece.
-/

namespace Hygiene

variable {outputScope : Option ScopeId} {scope : ScopeId} {f : ScopeSet → ScopeSet}

/-- What a mark marks: an atom, or the delimiters of a nest. -/
inductive Piece.Label where
  | atom (atom : Atom)
  | nest (shape : Nest)

/-- A token without its parts. -/
structure Piece where
  mark : Mark
  label : Piece.Label

namespace Piece

variable {p : Piece}

/-- The scopes of a piece. -/
def scopes (p : Piece) : ScopeSet := p.mark.scopes

/-- The name of a piece that is an identifier. -/
def name? (p : Piece) : Option String :=
  match p.label with
  | .atom (.ident name) => some name
  | _ => none

theorem label_of_name? {name : String} (h : p.name? = some name) : p.label = .atom (.ident name) := by
  unfold name? at h
  split at h
  · next heq =>
    cases h
    exact heq
  · cases h

/-- The piece with its scope set changed. -/
def mapScopes (f : ScopeSet → ScopeSet) (p : Piece) : Piece := { p with mark := p.mark.mapScopes f }

@[simp] theorem scopes_mapScopes (f : ScopeSet → ScopeSet) (p : Piece) : (p.mapScopes f).scopes = f p.scopes := rfl

@[simp] theorem label_mapScopes (f : ScopeSet → ScopeSet) (p : Piece) : (p.mapScopes f).label = p.label := rfl

@[simp] theorem site_mapScopes (f : ScopeSet → ScopeSet) (p : Piece) : (p.mapScopes f).mark.site = p.mark.site := rfl

@[simp] theorem mapScopes_mapScopes (f g : ScopeSet → ScopeSet) (p : Piece) :
    (p.mapScopes f).mapScopes g = p.mapScopes (g ∘ f) := rfl

/-- A change that keeps the scopes of a piece keeps the piece. -/
theorem mapScopes_eq_self (h : f p.scopes = p.scopes) : p.mapScopes f = p := by
  obtain ⟨⟨site, scopes⟩, label⟩ := p
  simp only [Piece.scopes] at h
  simp only [mapScopes, Mark.mapScopes, h]

/-- What an invocation makes of the scopes of a token that its transformer gave. -/
def markOutput (scope : ScopeId) (outputScope : Option ScopeId) (p : Piece) : Piece :=
  let flipped := p.mapScopes (·.flip scope)
  match outputScope with
  | some hidden => flipped.mapScopes fun s => if s.contains scope then s.insert hidden else s
  | none => flipped

@[simp] theorem label_markOutput (scope : ScopeId) (outputScope : Option ScopeId) (p : Piece) :
    (p.markOutput scope outputScope).label = p.label := by
  cases outputScope <;> rfl

@[simp] theorem site_markOutput (scope : ScopeId) (outputScope : Option ScopeId) (p : Piece) :
    (p.markOutput scope outputScope).mark.site = p.mark.site := by
  cases outputScope <;> rfl

/-- A token that carries the scope of the invocation loses it and is otherwise unchanged. -/
theorem markOutput_of_mem (h : scope ∈ p.scopes) :
    p.markOutput scope outputScope = p.mapScopes (·.flip scope) := by
  cases outputScope with
  | none => rfl
  | some hidden =>
    refine mapScopes_eq_self ?_
    rw [scopes_mapScopes, if_neg]
    rw [ScopeSet.contains_iff, ScopeSet.mem_flip_self]
    exact not_not_intro h

/-- A token that does not carry the scope of the invocation takes it on, together with the output scope. -/
theorem mem_markOutput_of_not_mem {x : ScopeId} (h : scope ∉ p.scopes) :
    x ∈ (p.markOutput scope outputScope).scopes ↔ x = scope ∨ some x = outputScope ∨ x ∈ p.scopes := by
  have hs : scope ∈ p.scopes.flip scope := ScopeSet.mem_flip_self.2 h
  have hx : x ∈ p.scopes.flip scope ↔ x = scope ∨ x ∈ p.scopes := by
    rw [ScopeSet.mem_flip]
    by_cases hxs : x = scope <;> simp [hxs, h]
  cases outputScope with
  | none => simp [markOutput, hx]
  | some hidden =>
    simp only [markOutput, scopes_mapScopes, ScopeSet.contains_iff, hs, if_true, ScopeSet.mem_insert, hx,
      Option.some.injEq]
    exact or_left_comm

end Piece

namespace Token

mutual

/-- The pieces of a token: its own, then those of its parts. -/
def pieces : Token → List Piece
  | .atom mark a => [⟨mark, .atom a⟩]
  | .nest mark shape children => ⟨mark, .nest shape⟩ :: piecesAll children

/-- The pieces of several tokens. -/
def piecesAll : List Token → List Piece
  | [] => []
  | token :: tokens => pieces token ++ piecesAll tokens

end

theorem mem_piecesAll {p : Piece} {tokens : List Token} : p ∈ piecesAll tokens ↔ ∃ t ∈ tokens, p ∈ pieces t := by
  induction tokens with
  | nil => simp [piecesAll]
  | cons t ts ih => simp [piecesAll, ih]

@[simp] theorem piecesAll_append (xs ys : List Token) : piecesAll (xs ++ ys) = piecesAll xs ++ piecesAll ys := by
  induction xs with
  | nil => simp [piecesAll]
  | cons t ts ih => simp [piecesAll, ih]

theorem piecesAll_subset {xs ys : List Token} (h : xs ⊆ ys) : piecesAll xs ⊆ piecesAll ys := by
  intro p hp
  obtain ⟨t, ht, hp⟩ := mem_piecesAll.1 hp
  exact mem_piecesAll.2 ⟨t, h ht, hp⟩

/-- The mark and the name of a token are those of one of its pieces. -/
theorem exists_label_mem_pieces (t : Token) :
    ∃ label, ⟨t.note, label⟩ ∈ pieces t ∧ (Piece.name? ⟨t.note, label⟩).getD "" = t.name := by
  cases t with
  | atom mark a => exact ⟨.atom a, by simp [pieces, Tree.note], by cases a <;> rfl⟩
  | nest mark shape children => exact ⟨.nest shape, by simp [pieces, Tree.note], rfl⟩

mutual

theorem pieces_mapScopes (f : ScopeSet → ScopeSet) :
    (t : Token) → pieces (t.map (Mark.mapScopes f)) = (pieces t).map (Piece.mapScopes f)
  | .atom mark a => rfl
  | .nest mark shape children => by
    simp only [Tree.map, pieces, List.map_cons, piecesAll_mapScopes f children]
    rfl

theorem piecesAll_mapScopes (f : ScopeSet → ScopeSet) :
    (ts : List Token) → piecesAll (Tree.mapAll (Mark.mapScopes f) ts) = (piecesAll ts).map (Piece.mapScopes f)
  | [] => rfl
  | t :: ts => by
    simp only [Tree.mapAll, piecesAll, List.map_append, pieces_mapScopes f t, piecesAll_mapScopes f ts]

end

theorem piecesAll_map (f : ScopeSet → ScopeSet) (ts : List Token) :
    piecesAll (ts.map fun t => Tree.map (Mark.mapScopes f) t) = (piecesAll ts).map (Piece.mapScopes f) := by
  induction ts with
  | nil => rfl
  | cons t ts ih => simp [piecesAll, pieces_mapScopes, ih]

theorem piecesAll_wrap (scope : ScopeId) (ts : List Token) :
    piecesAll (wrap scope ts) = (piecesAll ts).map (Piece.mapScopes (·.insert scope)) := piecesAll_map _ ts

theorem piecesAll_flip (scope : ScopeId) (ts : List Token) :
    piecesAll (flip scope ts) = (piecesAll ts).map (Piece.mapScopes (·.flip scope)) := piecesAll_map _ ts

theorem piecesAll_strip (scope : ScopeId) (ts : List Token) :
    piecesAll (strip scope ts) = (piecesAll ts).map (Piece.mapScopes (·.erase scope)) := piecesAll_map _ ts

theorem piecesAll_markOutput (scope : ScopeId) (outputScope : Option ScopeId) (ts : List Token) :
    piecesAll (markOutput scope outputScope ts) = (piecesAll ts).map (Piece.markOutput scope outputScope) := by
  cases outputScope with
  | none => exact piecesAll_flip scope ts
  | some hidden =>
    have h := piecesAll_map (fun s => if s.contains scope then s.insert hidden else s) (flip scope ts)
    rw [piecesAll_flip, List.map_map] at h
    exact h

mutual

/-- Tokens whose pieces all keep their scopes stay as they are. -/
theorem map_eq_self : (t : Token) → (∀ p ∈ pieces t, f p.scopes = p.scopes) →
    t.map (Mark.mapScopes f) = t
  | .atom mark a, h => by
    have hmark : mark.mapScopes f = mark := congrArg Piece.mark (Piece.mapScopes_eq_self (h _ List.mem_cons_self))
    rw [Tree.map, hmark]
  | .nest mark shape children, h => by
    have hmark : mark.mapScopes f = mark := congrArg Piece.mark (Piece.mapScopes_eq_self (h _ List.mem_cons_self))
    rw [Tree.map, hmark, mapAll_eq_self children fun p hp => h p (List.mem_cons_of_mem _ hp)]

theorem mapAll_eq_self : (ts : List Token) → (∀ p ∈ piecesAll ts, f p.scopes = p.scopes) →
    Tree.mapAll (Mark.mapScopes f) ts = ts
  | [], _ => rfl
  | t :: ts, h => by
    obtain ⟨ht, hts⟩ := List.forall_mem_append.1 h
    rw [Tree.mapAll, map_eq_self t ht, mapAll_eq_self ts hts]

end

end Token

end Hygiene
