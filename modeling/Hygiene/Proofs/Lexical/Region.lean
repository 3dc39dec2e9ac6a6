import Hygiene.Proofs.Lexical.Outline
import Hygiene.Proofs.Token.Piece

/-!
# Regions

Every scope of a term is a region: a scope number, and the scope set that its tokens carry, in which that number is the
largest. Its declarations are the bindings under exactly this set. What stands around the body of a function is declared
when the function is read, and what its body declares each time the body is expanded: not at all at first, and more than
once if the term was copied.
-/

namespace Hygiene

variable {parts : List Outline} {r : Region}

namespace Token

/-- All pieces of the tokens carry the same scopes. -/
def Uniform (c : ScopeSet) (tokens : List Token) : Prop := ∀ p ∈ piecesAll tokens, p.scopes = c

variable {c : ScopeSet} {t : Token} {ts ks : List Token} {scope : ScopeId}

theorem uniform_append : Uniform c (ts ++ ks) ↔ Uniform c ts ∧ Uniform c ks := by
  simp only [Uniform, piecesAll_append, List.mem_append, or_imp, forall_and]

theorem uniform_cons : Uniform c (t :: ts) ↔ Uniform c [t] ∧ Uniform c ts := by
  rw [← List.singleton_append, uniform_append]

theorem Uniform.mono (h : Uniform c ts) (hk : ks ⊆ ts) : Uniform c ks := fun p hp => h p (piecesAll_subset hk hp)

theorem Uniform.of_mem (h : Uniform c ts) (ht : t ∈ ts) : Uniform c [t] := h.mono (by simpa using ht)

theorem Uniform.scopes_eq (h : Uniform c [t]) : t.scopes = c := by
  obtain ⟨label, hl, _⟩ := exists_label_mem_pieces t
  exact h _ (by simpa [piecesAll] using hl)

/-- Entering a scope adds it to every token. -/
theorem Uniform.wrap (h : Uniform c ts) : Uniform (c.insert scope) (wrap scope ts) := by
  intro p hp
  rw [piecesAll_wrap] at hp
  obtain ⟨q, hq, rfl⟩ := List.mem_map.1 hp
  rw [Piece.scopes_mapScopes, h q hq]

theorem Uniform.addScope (h : Uniform c [t]) : Uniform (c.insert scope) [t.addScope scope] := h.wrap

/-- Tokens go back to the scopes they had before they were given the scope of a region. -/
theorem Uniform.strip (h : Uniform (c.insert scope) ts) (hs : scope ∉ c) : Uniform c (strip scope ts) := by
  intro p hp
  rw [piecesAll_strip] at hp
  obtain ⟨q, hq, rfl⟩ := List.mem_map.1 hp
  rw [Piece.scopes_mapScopes, h q hq, ScopeSet.erase_insert hs]

/-- The parts of a token carry its scopes. -/
theorem Uniform.children {mark : Mark} {shape : Nest} (h : Uniform c [.nest mark shape ts]) : Uniform c ts :=
  fun p hp => h p (by simp [piecesAll, pieces, hp])

/-- The tokens of a group carry the same scopes. -/
theorem Uniform.group {d : Delimiter} (h : Uniform c [t]) (hg : t.group? d = some ts) : Uniform c ts := by
  unfold Tree.group? at hg
  split at hg
  · split at hg
    · cases hg
      exact h.children
    · cases hg
  · cases hg

/-- So do those of a template. -/
theorem Uniform.template (h : Uniform c [t]) (ht : t.template? = some ts) : Uniform c ts := by
  unfold Tree.template? at ht
  split at ht
  · cases ht
    exact h.children
  · cases ht

end Token

/-- What a declaration is known by: its name and where it was written. -/
abbrev Key := String × Site

/-- The declaration that a binding was made for. -/
def Binding.key (b : Binding) : Key := (b.name, b.site)

/-- The declaration that an identifier makes. -/
def Token.key (t : Token) : Key := (t.name, t.site)

/-- The declarations under exactly the given scopes, in order. -/
def Store.under (s : Store) (scopes : ScopeSet) : List Key :=
  (s.bindings.toList.filter (·.scopes = scopes)).map Binding.key

theorem Store.under_push {s s' : Store} {b : Binding} (h : s'.bindings = s.bindings.push b) (c : ScopeSet) :
    s'.under c = s.under c ++ if b.scopes = c then [b.key] else [] := by
  by_cases hb : b.scopes = c <;> simp [under, h, hb]

/-- The keys of what is declared in the scope in which the parts stand. -/
def Outline.keys (parts : List Outline) : List Key := (declared parts).map Token.key

/-- The keys of what the bodies that are still to be expanded will declare, by what bodies declare. -/
def Outline.pendingKeys (d : List Token → List Key) (parts : List Outline) : List Key :=
  parts.flatMap fun
    | .pending tokens => d tokens
    | _ => []

namespace Outline

variable {d : List Token → List Key}

@[simp] theorem keys_nil : keys [] = [] := rfl

@[simp] theorem keys_append (l k : List Outline) : keys (l ++ k) = keys l ++ keys k := by simp [keys]

@[simp] theorem keys_cons (o : Outline) (l : List Outline) : keys (o :: l) = o.declared?.toList.map Token.key ++ keys l := by
  simp [keys]

@[simp] theorem pendingKeys_append (d : List Token → List Key) (l k : List Outline) :
    pendingKeys d (l ++ k) = pendingKeys d l ++ pendingKeys d k := List.flatMap_append

/-- Settled parts have no pending keys. -/
theorem pendingKeys_of_settled (h : ∀ o ∈ parts, o.Settled) : pendingKeys d parts = [] := by
  refine List.flatMap_eq_nil_iff.2 fun o ho => ?_
  have := h o ho
  cases o with
  | pending _ => exact this.elim
  | _ => rfl

theorem pendingKeys_of_complete (h : CompleteAll parts) : pendingKeys d parts = [] := by
  refine pendingKeys_of_settled fun o ho => ?_
  have := completeAll_iff.1 h o ho
  cases o with
  | pending _ => exact this
  | _ => trivial

end Outline

/-- A region of tokens. -/
structure Region where
  /-- The scopes of the tokens in the region. -/
  scopes : ScopeSet
  /-- What is declared when the region is read. -/
  own : List Key
  /-- What is declared each time the body of the region is expanded. -/
  inner : List Key

namespace Region

/-- The declarations that a body makes when it is expanded `n` times. -/
def repeated (r : Region) (n : Nat) : List Key := (List.replicate n r.inner).flatten

@[simp] theorem repeated_zero (r : Region) : r.repeated 0 = [] := rfl

@[simp] theorem repeated_one (r : Region) : r.repeated 1 = r.inner := by simp [repeated]

/-- Expanding a body again repeats its bindings. -/
theorem repeated_add (r : Region) (n m : Nat) : r.repeated n ++ r.repeated m = r.repeated (n + m) := by
  rw [repeated, repeated, repeated, ← List.flatten_append, List.replicate_append_replicate]

theorem repeated_of_inner (h : r.inner = []) (n : Nat) : r.repeated n = [] := by simp [repeated, h]

/-- The parts of a scope fit a region with the declarations that were found: they declare what the region declares on
its own and hold what is to be expanded, or they declare all of it and the body has been expanded. -/
def Fits (d : List Token → List Key) (r : Region) (found : List Key) (parts : List Outline) : Prop :=
  (Outline.keys parts = r.own ∧ Outline.pendingKeys d parts = r.inner ∧ ∃ n, found = r.own ++ r.repeated n) ∨
    (Outline.keys parts = r.own ++ r.inner ∧ Outline.pendingKeys d parts = [] ∧
      ∃ n, found = r.own ++ r.repeated (n + 1))

/-- Expanding the body of a region again does not change what fits it. -/
theorem Fits.repeat {d : List Token → List Key} {found : List Key}
    (h : r.Fits d found parts) (m : Nat) : r.Fits d (found ++ r.repeated m) parts := by
  rcases h with ⟨hown, hinner, n, rfl⟩ | ⟨hkeys, hpending, n, rfl⟩
  · exact Or.inl ⟨hown, hinner, n + m, by rw [List.append_assoc, repeated_add]⟩
  · exact Or.inr ⟨hkeys, hpending, n + m, by rw [List.append_assoc, repeated_add, Nat.add_right_comm]⟩

end Region

end Hygiene
