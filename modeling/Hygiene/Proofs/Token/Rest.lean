import Hygiene.Proofs.Token.Bare
import Hygiene.Proofs.Token.Piece

/-!
# What is left of tokens

Tokens that are left over from others are those at the end of them. On the way they may have been given scopes that were
taken away again, wherever they stood, so a scope that has to be kept is one that nobody adds.
-/

namespace Hygiene

/-- The change only takes scopes away, and none of those that are to be kept. -/
def ScopeSet.Sheds (kept : ScopeId → Prop) (f : ScopeSet → ScopeSet) : Prop :=
  ∀ c x, (x ∈ f c → x ∈ c) ∧ (kept x → x ∈ c → x ∈ f c)

namespace Token

/-- The second tokens are at the end of the first, apart from scopes that need not be kept. -/
def Rest (kept : ScopeId → Prop) (ts ts' : List Token) : Prop :=
  ∃ f, ScopeSet.Sheds kept f ∧ ts' <:+ ts.map (Tree.map (Mark.mapScopes f))

variable {kept kept' : ScopeId → Prop} {ts ts' ts'' : List Token} {scope : ScopeId}

theorem map_map_mapScopes (f g : ScopeSet → ScopeSet) (ts : List Token) :
    (ts.map (Tree.map (Mark.mapScopes f))).map (Tree.map (Mark.mapScopes g)) =
      ts.map (Tree.map (Mark.mapScopes (g ∘ f))) := by
  rw [List.map_map]
  exact List.map_congr_left fun t _ => Tree.map_map _ _ t

theorem map_mapScopes_eq_self {f : ScopeSet → ScopeSet} (h : ∀ p ∈ piecesAll ts, f p.scopes = p.scopes) :
    ts.map (Tree.map (Mark.mapScopes f)) = ts := by
  rw [← Tree.mapAll_eq, mapAll_eq_self ts h]

namespace Rest

theorem of_suffix (h : ts' <:+ ts) : Rest kept ts ts' :=
  ⟨id, fun _ _ => ⟨id, fun _ => id⟩, by rwa [map_mapScopes_eq_self fun _ _ => rfl]⟩

theorem mono (h : Rest kept' ts ts') (hk : ∀ x, kept x → kept' x) : Rest kept ts ts' := by
  obtain ⟨f, hf, hsuffix⟩ := h
  exact ⟨f, fun c x => ⟨(hf c x).1, fun hx => (hf c x).2 (hk x hx)⟩, hsuffix⟩

theorem trans (h : Rest kept ts ts') (h' : Rest kept ts' ts'') : Rest kept ts ts'' := by
  obtain ⟨f, hf, hsuffix⟩ := h
  obtain ⟨g, hg, hsuffix'⟩ := h'
  refine ⟨g ∘ f, fun c x => ⟨fun hx => (hf c x).1 ((hg _ x).1 hx), fun hk hx => (hg _ x).2 hk ((hf c x).2 hk hx)⟩, ?_⟩
  rw [← map_map_mapScopes]
  exact hsuffix'.trans (hsuffix.map _)

/-- What is left of tokens that were given a scope, once the scope is taken away again. -/
theorem strip (h : Rest kept (wrap scope ts) ts') (hs : ¬ kept scope) : Rest kept ts (strip scope ts') := by
  obtain ⟨f, hf, hsuffix⟩ := h
  refine ⟨(·.erase scope) ∘ f ∘ (·.insert scope), fun c x => ⟨fun hx => ?_, fun hk hx => ?_⟩, ?_⟩
  · obtain ⟨hx, hne⟩ := ScopeSet.mem_erase.1 hx
    exact (ScopeSet.mem_insert.1 ((hf _ x).1 hx)).resolve_left hne
  · exact ScopeSet.mem_erase.2 ⟨(hf _ x).2 hk (ScopeSet.mem_insert.2 (Or.inr hx)), fun heq => hs (heq ▸ hk)⟩
  · rw [← map_map_mapScopes, ← map_map_mapScopes]
    exact hsuffix.map _

/-- Where all scopes are to be kept, what is left is just the end. -/
theorem suffix (h : Rest kept ts ts') (hk : ∀ p ∈ piecesAll ts, ∀ x ∈ p.scopes, kept x) : ts' <:+ ts := by
  obtain ⟨f, hf, hsuffix⟩ := h
  rwa [map_mapScopes_eq_self fun p hp => ScopeSet.ext_mem fun x => ⟨(hf _ x).1, fun hx => (hf _ x).2 (hk p hp x hx) hx⟩]
    at hsuffix

end Rest

end Token

end Hygiene
