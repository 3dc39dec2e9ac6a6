import Mathlib.Data.Finset.SymmDiff
import Mathlib.Data.Finset.Card
import Hygiene.Proofs.Token.Bare
import Hygiene.Proofs.Token.Piece

/-!
# Laws of scope sets

A scope set stands for a finite set, and what is done to it or asked of it is done to or asked of that set.
-/

namespace Hygiene

open List

namespace ScopeSet

/-- What can be done to a set, or to all sets of tokens. -/
inductive Action where
  | add (scope : ScopeId)
  | remove (scope : ScopeId)
  | flip (scope : ScopeId)

namespace Action

/-- The scope that is added, removed or flipped. -/
def scope : Action → ScopeId
  | add scope => scope
  | remove scope => scope
  | flip scope => scope

/-- The action on finite sets. -/
def onFinset (f : Finset ScopeId) : Action → Finset ScopeId
  | add scope => Insert.insert scope f
  | remove scope => f.erase scope
  | flip scope => symmDiff f {scope}

/-- The action on all tokens. -/
def onTokens (ts : List Token) : Action → List Token
  | add scope => Token.wrap scope ts
  | remove scope => Token.strip scope ts
  | flip scope => Token.flip scope ts

end Action

/-- The set after an action. -/
def act (s : ScopeSet) : Action → ScopeSet
  | .add scope => s.insert scope
  | .remove scope => s.erase scope
  | .flip scope => s.flip scope

/-- The set of the scopes in a list, after a sequence of actions. -/
def built (start : List ScopeId) (actions : List Action) : ScopeSet := actions.foldl act (ofList start)

/-- The finite set of the scopes in a list, after the same actions. -/
def builtFinset (start : List ScopeId) (actions : List Action) : Finset ScopeId :=
  actions.foldl Action.onFinset start.toFinset

/-- The set and the finite set have the same members. -/
def Represents (s : ScopeSet) (f : Finset ScopeId) : Prop := ∀ x, x ∈ s ↔ x ∈ f

variable {s t : ScopeSet} {f g : Finset ScopeId} {a b : Action} {x : ScopeId}

theorem Represents.act (h : s.Represents f) (a : Action) : (s.act a).Represents (a.onFinset f) := by
  intro x
  cases a with
  | add scope => simp [ScopeSet.act, Action.onFinset, h x]
  | remove scope => simp [ScopeSet.act, Action.onFinset, h x, and_comm]
  | flip scope =>
    rw [ScopeSet.act, Action.onFinset, mem_flip, Finset.mem_symmDiff, Finset.mem_singleton]
    by_cases hx : x = scope
    · simp [hx, h scope]
    · simp [hx, h x]

theorem represents_ofList (scopes : List ScopeId) : (ofList scopes).Represents scopes.toFinset := by
  have hfold : ∀ s : ScopeSet, ∀ x, x ∈ scopes.foldl insert s ↔ x ∈ s ∨ x ∈ scopes := by
    induction scopes with
    | nil => simp
    | cons scope scopes ih =>
      intro s x
      rw [foldl_cons, ih, mem_insert, mem_cons, or_assoc, or_left_comm]
  intro x
  rw [ofList, hfold, mem_toFinset]
  simp

/-- Whatever is done, the set stands for the finite set to which the same is done. -/
theorem represents_built (start : List ScopeId) (actions : List Action) :
    (built start actions).Represents (builtFinset start actions) := by
  have hfold : ∀ {s : ScopeSet} {f}, s.Represents f →
      (actions.foldl ScopeSet.act s).Represents (actions.foldl Action.onFinset f) := by
    induction actions with
    | nil => exact id
    | cons a actions ih => exact fun h => ih (h.act a)
  exact hfold (represents_ofList start)

namespace Represents

theorem contains_iff (h : s.Represents f) : s.contains x = true ↔ x ∈ f := ScopeSet.contains_iff.trans (h x)

theorem size_eq (h : s.Represents f) : s.size = f.card := by
  have hnodup : s.toList.Nodup := s.increasing.imp Nat.ne_of_lt
  rw [size, ← toFinset_card_of_nodup hnodup]
  refine congrArg Finset.card (Finset.ext fun x => ?_)
  rw [mem_toFinset]
  exact h x

theorem isSubset_iff (hs : s.Represents f) (ht : t.Represents g) : s.isSubset t = true ↔ f ⊆ g := by
  rw [ScopeSet.isSubset_iff]
  exact forall_congr' fun x => imp_congr (hs x) (ht x)

theorem eq_iff (hs : s.Represents f) (ht : t.Represents g) : s = t ↔ f = g := by
  refine ⟨fun h => Finset.ext fun x => ?_, fun h => ext_mem fun x => ?_⟩
  · rw [← hs x, ← ht x, h]
  · rw [hs x, ht x, h]

end Represents

/-! ### Laws -/

/-- Actions on different scopes commute. -/
theorem act_comm (s : ScopeSet) (h : a.scope ≠ b.scope) : (s.act a).act b = (s.act b).act a := by
  refine ext_mem fun z => ?_
  cases a <;> cases b <;> simp only [act, mem_insert, mem_erase, mem_flip] <;> grind [Action.scope]

theorem onTokens_eq (a : Action) (ts : List Token) : a.onTokens ts = ts.map (Tree.map (Mark.mapScopes (·.act a))) := by
  cases a <;> rfl

theorem onTokens_onTokens (a b : Action) (ts : List Token) :
    b.onTokens (a.onTokens ts) = ts.map (Tree.map (Mark.mapScopes fun s => (s.act a).act b)) := by
  rw [onTokens_eq, onTokens_eq, List.map_map]
  exact map_congr_left fun t _ => Tree.map_map _ _ t

/-- Two actions that take each other back on the scopes of all pieces take each other back on the tokens. -/
theorem onTokens_eq_self {a b : Action} {ts : List Token}
    (h : ∀ p ∈ Token.piecesAll ts, (p.scopes.act a).act b = p.scopes) : b.onTokens (a.onTokens ts) = ts := by
  rw [onTokens_onTokens, ← Tree.mapAll_eq]
  exact Token.mapAll_eq_self ts h

/-- Scope sets are faithful finite sets. The list is strictly increasing, and what is asked of sets is told by the
finite sets they stand for. Flipping twice does nothing, actions on different scopes commute, also throughout tokens;
tokens that do not carry a scope are restored when it is added and removed. -/
theorem sets_faithful (start other : List ScopeId) (actions others : List Action) :
    let s := built start actions
    let t := built other others
    let f := builtFinset start actions
    let g := builtFinset other others
    (s.toList.Pairwise (· < ·) ∧ (∀ x, s.contains x = true ↔ x ∈ f) ∧ s.size = f.card ∧
      (s.isSubset t = true ↔ f ⊆ g) ∧ (s.toList = t.toList ↔ f = g)) ∧
    (∀ x, (s.flip x).flip x = s) ∧
    (∀ a b : Action, a.scope ≠ b.scope → (s.act a).act b = (s.act b).act a) ∧
    ∀ ts : List Token, (∀ x, Token.flip x (Token.flip x ts) = ts) ∧
      (∀ a b : Action, a.scope ≠ b.scope → b.onTokens (a.onTokens ts) = a.onTokens (b.onTokens ts)) ∧
      ∀ x, (∀ p ∈ Token.piecesAll ts, x ∉ p.scopes) → Token.strip x (Token.wrap x ts) = ts := by
  intro s t f g
  have hs : s.Represents f := represents_built start actions
  have ht : t.Represents g := represents_built other others
  have heq : s.toList = t.toList ↔ s = t := ⟨fun h => ext_mem fun x => by rw [mem_def, h, mem_def], congrArg toList⟩
  refine ⟨⟨s.increasing, fun x => hs.contains_iff, hs.size_eq, hs.isSubset_iff ht, heq.trans (hs.eq_iff ht)⟩,
    s.flip_flip, fun a b h => s.act_comm h, fun ts => ⟨fun x => ?_, fun a b h => ?_, fun x hx => ?_⟩⟩
  · exact onTokens_eq_self (a := .flip x) (b := .flip x) fun p _ => flip_flip p.scopes x
  · simp only [onTokens_onTokens, act_comm _ h]
  · exact onTokens_eq_self (a := .add x) (b := .remove x) fun p hp => erase_insert (hx p hp)

/-- A group that does not carry the scope. -/
theorem sets_faithful_group :
    let ts : List Token := [.nest ⟨.unknown, .ofList [2]⟩ (.group .paren) [.atom ⟨.unknown, .ofList [0, 2]⟩ (.ident "x")]]
    (∀ p ∈ Token.piecesAll ts, 1 ∉ p.scopes) ∧ Token.strip 1 (Token.wrap 1 ts) = ts ∧
      Token.flip 2 (Token.wrap 1 ts) = Token.wrap 1 (Token.flip 2 ts) := by
  intro ts
  have hscope : ∀ p ∈ Token.piecesAll ts, 1 ∉ p.scopes := by
    intro p hp
    simp only [ts, Token.piecesAll, Token.pieces, append_nil, mem_cons, not_mem_nil, or_false] at hp
    rcases hp with rfl | rfl <;> decide
  obtain ⟨-, -, -, htokens⟩ := sets_faithful [] [] [] []
  exact ⟨hscope, (htokens ts).2.2 1 hscope, (htokens ts).2.1 (.add 1) (.flip 2) (by decide)⟩

end ScopeSet

end Hygiene
