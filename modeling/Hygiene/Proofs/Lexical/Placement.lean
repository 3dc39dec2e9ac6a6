import Hygiene.Proofs.Lexical.Region

/-!
# Terms in regions

A term is placed in a region when its identifiers carry the scopes of the region and each of its scopes is a region
inside it. As a run goes on, regions are opened and bodies may be expanded again; terms stay placed.
-/

namespace Hygiene

/-- The region that each scope belongs to. -/
abbrev Regions := ScopeId → Region

/-- The regions with one of them changed. -/
def Regions.set (R : Regions) (F : ScopeId) (r : Region) : Regions := fun x => if x = F then r else R x

@[simp] theorem Regions.set_self (R : Regions) (F : ScopeId) (r : Region) : R.set F r F = r := if_pos rfl

theorem Regions.set_of_ne (R : Regions) {F x : ScopeId} (r : Region) (h : x ≠ F) : R.set F r x = R x := if_neg h

namespace Outline

section Placed

variable (d : List Token → List Key) (R : Regions) (store : Store)

mutual

/-- The part stands in a region with the scopes `c`. -/
def Placed (c : ScopeSet) : Outline → Prop
  | use ident => ident.scopes = c ∧ ident.isIdent = true
  | declare ident => ident.scopes = c ∧ ident.isIdent = true
  | scope parts => ∃ F, F < store.nextScope ∧ (∀ x ∈ c, x < F) ∧ (R F).scopes = c.insert F ∧
      (R F).Fits d (store.under (R F).scopes) parts ∧ PlacedAll (c.insert F) parts
  | pending tokens => Token.Uniform c tokens

/-- The parts stand in a region with the scopes `c`. -/
def PlacedAll (c : ScopeSet) : List Outline → Prop
  | [] => True
  | o :: rest => Placed c o ∧ PlacedAll c rest

end

/-- The parts stand in the region of `F`, which lies in a region with the scopes `c`. -/
structure PlacedIn (c : ScopeSet) (F : ScopeId) (parts : List Outline) : Prop where
  lt : F < store.nextScope
  above : ∀ x ∈ c, x < F
  scopes : (R F).scopes = c.insert F
  fits : (R F).Fits d (store.under (R F).scopes) parts
  parts : PlacedAll d R store (c.insert F) parts

end Placed

variable {d : List Token → List Key} {R R' : Regions} {store store' : Store} {c : ScopeSet} {F : ScopeId}
  {l k parts : List Outline}

/-- A scope is placed in a region of its own. -/
theorem placed_scope : Placed d R store c (scope parts) ↔ ∃ F, PlacedIn d R store c F parts := by
  constructor
  · rintro ⟨F, lt, above, scopes, fits, parts⟩
    exact ⟨F, lt, above, scopes, fits, parts⟩
  · rintro ⟨F, lt, above, scopes, fits, parts⟩
    exact ⟨F, lt, above, scopes, fits, parts⟩

theorem placedAll_iff : PlacedAll d R store c l ↔ ∀ o ∈ l, Placed d R store c o := by
  induction l with
  | nil => simp [PlacedAll]
  | cons o l ih => simp [PlacedAll, ih]

@[simp] theorem placedAll_append :
    PlacedAll d R store c (l ++ k) ↔ PlacedAll d R store c l ∧ PlacedAll d R store c k := by
  simp only [placedAll_iff, List.mem_append, or_imp, forall_and]

/-- Inside of the scopes `c`, regions stay as they are, except that bodies may have been expanded again. -/
def Transfers (R : Regions) (store : Store) (R' : Regions) (store' : Store) (c : ScopeSet) : Prop :=
  ∀ F < store.nextScope, (∀ x ∈ c, x < F) → (∀ x ∈ c, x ∈ (R F).scopes) → F ∈ (R F).scopes →
    F < store'.nextScope ∧ R' F = R F ∧ ∃ n, store'.under (R F).scopes = store.under (R F).scopes ++ (R F).repeated n

theorem Transfers.insert (h : Transfers R store R' store' c) : Transfers R store R' store' (c.insert F) := by
  intro G hG hlt hmem
  refine h G hG (fun x hx => hlt x ?_) fun x hx => hmem x ?_
  · exact ScopeSet.mem_insert.2 (Or.inr hx)
  · exact ScopeSet.mem_insert.2 (Or.inr hx)

/-- A region can be changed without effect on what is placed inside of it. -/
theorem transfers_set {r : Region} (h : ∃ x ∈ c, F ≤ x) : Transfers R store (R.set F r) store c := by
  intro G hG hlt _ _
  obtain ⟨x, hx, hle⟩ := h
  refine ⟨hG, R.set_of_ne r ?_, 0, by simp⟩
  exact Nat.ne_of_gt (Nat.lt_of_le_of_lt hle (hlt x hx))

mutual

/-- A placed term stays placed in a store that extends its own. -/
theorem Placed.transfer {c : ScopeSet} (h : Transfers R store R' store' c) :
    (o : Outline) → Placed d R store c o → Placed d R' store' c o
  | use _, ho => ho
  | declare _, ho => ho
  | pending _, ho => ho
  | scope parts, ⟨F, lt, above, scopes, fits, hparts⟩ => by
    have hF : F ∈ (R F).scopes := scopes ▸ ScopeSet.mem_insert.2 (Or.inl rfl)
    have hc : ∀ x ∈ c, x ∈ (R F).scopes := fun x hx => scopes ▸ ScopeSet.mem_insert.2 (Or.inr hx)
    obtain ⟨lt', same, n, hn⟩ := h F lt above hc hF
    refine ⟨F, lt', above, same ▸ scopes, ?_, PlacedAll.transfer h.insert parts hparts⟩
    rw [same, hn]
    exact fits.repeat n

theorem PlacedAll.transfer {c : ScopeSet} (h : Transfers R store R' store' c) :
    (l : List Outline) → PlacedAll d R store c l → PlacedAll d R' store' c l
  | [], _ => trivial
  | o :: l, ⟨ho, hl⟩ => ⟨Placed.transfer h o ho, PlacedAll.transfer h l hl⟩

end

/-- So does a scope placed in its region. -/
theorem PlacedIn.transfer (h : Transfers R store R' store' (c.insert F))
    (hF : F < store'.nextScope ∧ R' F = R F ∧
      ∃ n, store'.under (R F).scopes = store.under (R F).scopes ++ (R F).repeated n)
    (hp : PlacedIn d R store c F parts) : PlacedIn d R' store' c F parts := by
  obtain ⟨lt', same, n, hn⟩ := hF
  refine ⟨lt', hp.above, same ▸ hp.scopes, ?_, hp.parts.transfer h⟩
  rw [same, hn]
  exact hp.fits.repeat n

mutual

/-- Where nothing is left to be expanded it does not matter what bodies declare. -/
theorem Placed.of_complete {d' : List Token → List Key} {c : ScopeSet} :
    (o : Outline) → o.Complete → Placed d R store c o → Placed d' R store c o
  | use _, _, ho => ho
  | declare _, _, ho => ho
  | pending _, hc, _ => hc.elim
  | scope parts, hc, ⟨F, lt, above, scopes, fits, hparts⟩ => by
    refine ⟨F, lt, above, scopes, ?_, PlacedAll.of_complete parts hc hparts⟩
    rcases fits with ⟨hown, hinner, hn⟩ | ⟨hkeys, _, hn⟩
    · rw [pendingKeys_of_complete hc] at hinner
      exact Or.inl ⟨hown, by rw [pendingKeys_of_complete hc, hinner], hn⟩
    · exact Or.inr ⟨hkeys, pendingKeys_of_complete hc, hn⟩

/-- Complete terms are placed whatever pending bodies declare. -/
theorem PlacedAll.of_complete {d' : List Token → List Key} {c : ScopeSet} :
    (l : List Outline) → CompleteAll l → PlacedAll d R store c l → PlacedAll d' R store c l
  | [], _, _ => trivial
  | o :: l, ⟨hc, hcl⟩, ⟨ho, hl⟩ => ⟨Placed.of_complete o hc ho, PlacedAll.of_complete l hcl hl⟩

end

end Outline

end Hygiene
