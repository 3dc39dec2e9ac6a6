import Hygiene.Proofs.Lexical.Placement

/-!
# How regions grow

While the tokens of a region are read, its declarations are added under its scopes; under those of every other region
nothing is added except what an expanded body declares. So what happens inside a region is seen from outside as growth
that keeps all terms in their places.
-/

namespace Hygiene

/-- The terms of a module are placed in the region of its scope, and nothing of them is left to be expanded. -/
structure ModuleRecord.Placed (R : Regions) (store : Store) (record : ModuleRecord) (M : ScopeId) : Prop where
  complete : Outline.CompleteAll record.outline
  placed : Outline.PlacedIn (fun _ => []) R store .empty M record.outline

namespace Regions

variable {d : List Token → List Key}

/-- The regions fit a run: each has the scope it belongs to as its largest one, and everything is bound in one of
them. -/
structure Valid (R : Regions) (run : Run) : Prop where
  mem : ∀ F < run.store.nextScope, F ∈ (R F).scopes
  le : ∀ F < run.store.nextScope, ∀ x ∈ (R F).scopes, x ≤ F
  bound : ∀ b ∈ run.store.bindings.toList,
    b.hiddenFrom = none ∧ ∃ F < run.store.nextScope, b.scopes = (R F).scopes

/-- The scopes `c` are those of a region that is being read. -/
def Open (R : Regions) (run : Run) (c : ScopeSet) : Prop :=
  ∃ F < run.store.nextScope, (R F).scopes = c ∧ (R F).inner = []

/-- Regions are kept, and nothing is declared in them but by their bodies. New modules are placed in new regions. -/
structure Grows (R : Regions) (run : Run) (R' : Regions) (run' : Run) : Prop where
  next : run.store.nextScope ≤ run'.store.nextScope
  agree : ∀ F < run.store.nextScope, R' F = R F
  bodies : ∀ F < run.store.nextScope,
    ∃ n, run'.store.under (R F).scopes = run.store.under (R F).scopes ++ (R F).repeated n
  modules : ∀ entry ∈ run'.modules, entry ∈ run.modules ∨
    ∃ M, run.store.nextScope ≤ M ∧ entry.2.Placed R' run'.store M

/-- Regions are kept, and nothing is declared in them but by their bodies, except that `ks` are declared under the
scopes `c`. New modules are placed in new regions. -/
structure Step (c : ScopeSet) (R : Regions) (run : Run) (R' : Regions) (run' : Run) (ks : List Key) : Prop where
  next : run.store.nextScope ≤ run'.store.nextScope
  agree : ∀ F < run.store.nextScope, R' F = R F
  bodies : ∀ F < run.store.nextScope, (R F).scopes ≠ c →
    ∃ n, run'.store.under (R F).scopes = run.store.under (R F).scopes ++ (R F).repeated n
  here : run'.store.under c = run.store.under c ++ ks
  modules : ∀ entry ∈ run'.modules, entry ∈ run.modules ∨
    ∃ M, run.store.nextScope ≤ M ∧ entry.2.Placed R' run'.store M

variable {R R' R'' R₁ : Regions} {run run' run'' run₁ run₂ : Run} {c b : ScopeSet} {F G : ScopeId} {ks ks' : List Key}

/-- Different regions have different scopes. -/
theorem Valid.inj (hv : R.Valid run) (hF : F < run.store.nextScope) (hG : G < run.store.nextScope)
    (h : (R F).scopes = (R G).scopes) : F = G :=
  Nat.le_antisymm (hv.le G hG F (h ▸ hv.mem F hF)) (hv.le F hF G (h ▸ hv.mem G hG))

/-- The scopes of an open region are old. -/
theorem Open.lt (ho : R.Open run c) (hv : R.Valid run) : ∀ x ∈ c, x < run.store.nextScope := by
  obtain ⟨F, hF, rfl, _⟩ := ho
  exact fun x hx => Nat.lt_of_le_of_lt (hv.le F hF x hx) hF

theorem Open.of_agree (ho : R.Open run c) (next : run.store.nextScope ≤ run'.store.nextScope)
    (agree : ∀ F < run.store.nextScope, R' F = R F) : R'.Open run' c := by
  obtain ⟨F, hF, hc, hi⟩ := ho
  exact ⟨F, Nat.lt_of_lt_of_le hF next, by rw [agree F hF, hc], by rw [agree F hF, hi]⟩

/-- An open region stays open while the store grows. -/
theorem Open.step (ho : R.Open run c) (h : Step c R run R' run' ks) : R'.Open run' c := ho.of_agree h.next h.agree

/-- Inside of the scopes of the region that is read, or inside of a later one, all regions are kept. -/
theorem Step.transfers {a : ScopeSet} (h : Step c R run R' run' ks) (ha : (∀ x ∈ c, x ∈ a) ∨ ∃ x ∈ a, x ∉ c) :
    Outline.Transfers R run.store R' run'.store a := by
  intro F hF above hmem hself
  have hne : (R F).scopes ≠ c := by
    rintro rfl
    rcases ha with ha | ⟨x, hx, hxc⟩
    · exact Nat.lt_irrefl _ (above F (ha F hself))
    · exact hxc (hmem x hx)
  exact ⟨Nat.lt_of_lt_of_le hF h.next, h.agree F hF, h.bodies F hF hne⟩

/-- Placed terms stay placed while the store grows. -/
theorem Step.placedAll {l : List Outline} (h : Step c R run R' run' ks)
    (hl : Outline.PlacedAll d R run.store c l) : Outline.PlacedAll d R' run'.store c l :=
  hl.transfer (h.transfers (Or.inl fun _ hx => hx))

/-- A module stays placed while a region outside of it is read. -/
theorem Step.placed {record : ModuleRecord} {M : ScopeId} (h : Step c R run R' run' ks)
    (hp : record.Placed R run.store M) (hM : M ∉ c) : record.Placed R' run'.store M := by
  have hself : M ∈ ScopeSet.empty.insert M := ScopeSet.mem_insert.2 (Or.inl rfl)
  obtain ⟨hcomplete, hp⟩ := hp
  refine ⟨hcomplete, Outline.PlacedIn.transfer (h.transfers (Or.inr ⟨M, hself, hM⟩)) ?_ hp⟩
  have hne : (R M).scopes ≠ c := by
    rw [hp.scopes]
    rintro rfl
    exact hM hself
  exact ⟨Nat.lt_of_lt_of_le hp.lt h.next, h.agree M hp.lt, h.bodies M hp.lt hne⟩

/-- Nothing happens to regions when bindings, scopes and modules stay as they are. -/
theorem Step.of_same (store : run'.store = run.store) (modules : run'.modules = run.modules) :
    Step c R run R run' [] where
  next := Nat.le_of_eq (by rw [store])
  agree _ _ := rfl
  bodies F _ _ := ⟨0, by rw [store]; simp⟩
  here := by rw [store]; simp
  modules entry he := Or.inl (modules ▸ he)

theorem Step.refl (c : ScopeSet) (R : Regions) (run : Run) : Step c R run R run [] := .of_same rfl rfl

theorem Valid.of_same (hv : R.Valid run) (store : run'.store = run.store) : R.Valid run' := by
  obtain ⟨mem, le, bound⟩ := hv
  exact ⟨store ▸ mem, store ▸ le, store ▸ bound⟩

/-- Two steps of growth are one. -/
theorem Step.trans (h : Step c R run R' run' ks) (h' : Step c R' run' R'' run'' ks')
    (hc : ∀ x ∈ c, x < run.store.nextScope) : Step c R run R'' run'' (ks ++ ks') where
  next := Nat.le_trans h.next h'.next
  agree F hF := by rw [h'.agree F (Nat.lt_of_lt_of_le hF h.next), h.agree F hF]
  bodies F hF hne := by
    obtain ⟨n, hn⟩ := h.bodies F hF hne
    have same := h.agree F hF
    obtain ⟨m, hm⟩ := h'.bodies F (Nat.lt_of_lt_of_le hF h.next) (same ▸ hne)
    rw [same] at hm
    exact ⟨n + m, by rw [hm, hn, List.append_assoc, Region.repeated_add]⟩
  here := by rw [h'.here, h.here, List.append_assoc]
  modules entry he := by
    rcases h'.modules entry he with he | ⟨M, hM, hp⟩
    · rcases h.modules entry he with he | ⟨M, hM, hp⟩
      · exact Or.inl he
      · exact Or.inr ⟨M, hM, h'.placed hp fun hMc => Nat.not_lt.2 hM (hc M hMc)⟩
    · exact Or.inr ⟨M, Nat.le_trans h.next hM, hp⟩

/-- Growth leaves a region that is being read as it is. -/
theorem Grows.step (h : Grows R run R' run') (ho : R.Open run c) : Step c R run R' run' [] where
  next := h.next
  agree := h.agree
  bodies F hF _ := h.bodies F hF
  here := by
    obtain ⟨F, hF, rfl, hinner⟩ := ho
    obtain ⟨n, hn⟩ := h.bodies F hF
    rw [hn, Region.repeated_of_inner hinner]
  modules := h.modules

/-- A binding under the scopes of the region that is read is declared in it. -/
theorem Valid.bind {b : Binding} (hv : R.Valid run) (ho : R.Open run c) (hb : b.scopes = c) (hh : b.hiddenFrom = none)
    (next : run'.store.nextScope = run.store.nextScope) (bindings : run'.store.bindings = run.store.bindings.push b)
    (modules : run'.modules = run.modules) : R.Valid run' ∧ Step c R run R run' [b.key] := by
  refine ⟨⟨next ▸ hv.mem, next ▸ hv.le, fun e he => ?_⟩, ⟨Nat.le_of_eq next.symm, fun _ _ => rfl, fun F _ hne => ?_, ?_,
    fun entry he => Or.inl (modules ▸ he)⟩⟩
  · rw [bindings, Array.toList_push, List.mem_append, List.mem_singleton] at he
    rcases he with he | rfl
    · exact next ▸ hv.bound e he
    · obtain ⟨F, hF, hc, _⟩ := ho
      exact ⟨hh, F, next ▸ hF, hb.trans hc.symm⟩
  · refine ⟨0, ?_⟩
    rw [Store.under_push bindings, if_neg (by rw [hb]; exact hne.symm), Region.repeated_zero]
  · rw [Store.under_push bindings, if_pos hb]

/-- It is only the scopes of the regions that have to fit a run. -/
theorem Valid.set (hv : R.Valid run) {r : Region} (hr : r.scopes = (R F).scopes) : (R.set F r).Valid run := by
  have same : ∀ G, (R.set F r G).scopes = (R G).scopes := by
    intro G
    by_cases hG : G = F
    · rw [hG, set_self, hr]
    · rw [R.set_of_ne r hG]
  refine ⟨fun G hG => ?_, fun G hG => ?_, fun b hb => ?_⟩
  · rw [same]
    exact hv.mem G hG
  · rw [same]
    exact hv.le G hG
  · obtain ⟨hh, G, hG, hb⟩ := hv.bound b hb
    exact ⟨hh, G, hG, by rw [same, hb]⟩

/-- The region of a new scope, before anything is declared in it. -/
abbrev fresh (b : ScopeSet) (F : ScopeId) : Region := ⟨b.insert F, [], []⟩

/-- A new scope may be made a region of its own. -/
theorem Valid.opened (hv : R.Valid run) (hb : ∀ x ∈ b, x < run.store.nextScope)
    (next : run₁.store.nextScope = run.store.nextScope + 1) (bindings : run₁.store.bindings = run.store.bindings) :
    (R.set run.store.nextScope (fresh b run.store.nextScope)).Valid run₁ := by
  have hold : ∀ G, G < run.store.nextScope → G ≠ run.store.nextScope := fun _ h => Nat.ne_of_lt h
  refine ⟨fun G hG => ?_, fun G hG x hx => ?_, fun c hc => ?_⟩
  · rcases Nat.lt_or_eq_of_le (Nat.le_of_lt_succ (next ▸ hG)) with hG | rfl
    · rw [R.set_of_ne _ (hold G hG)]
      exact hv.mem G hG
    · rw [set_self]
      exact ScopeSet.mem_insert.2 (Or.inl rfl)
  · rcases Nat.lt_or_eq_of_le (Nat.le_of_lt_succ (next ▸ hG)) with hG | rfl
    · rw [R.set_of_ne _ (hold G hG)] at hx
      exact hv.le G hG x hx
    · rw [set_self] at hx
      rcases ScopeSet.mem_insert.1 hx with rfl | hx
      · exact Nat.le_refl _
      · exact Nat.le_of_lt (hb x hx)
  · obtain ⟨hh, G, hG, hcG⟩ := hv.bound c (bindings ▸ hc)
    refine ⟨hh, G, next ▸ Nat.lt_succ_of_lt hG, ?_⟩
    rw [R.set_of_ne _ (hold G hG), hcG]

theorem open_fresh (next : run₁.store.nextScope = run.store.nextScope + 1) :
    (R.set run.store.nextScope (fresh b run.store.nextScope)).Open run₁ (b.insert run.store.nextScope) :=
  ⟨run.store.nextScope, by rw [next]; exact Nat.lt_succ_self _, by rw [set_self], by rw [set_self]⟩

/-- What was done while one region was read, seen from outside of it. -/
theorem Step.grows {X : ScopeSet} {r : Region} {R₂ : Regions} (h : Step X R₁ run₁ R₂ run₂ ks)
    (next : run.store.nextScope ≤ run₁.store.nextScope) (bindings : run₁.store.bindings = run.store.bindings)
    (modules : run₁.modules = run.modules) (hF : F < run₁.store.nextScope)
    (old : ∀ G < run.store.nextScope, G ≠ F → R₁ G = R G ∧ (R G).scopes ≠ X)
    (here : F < run.store.nextScope → (R F).scopes = X ∧ r = R F ∧ ∃ n, ks = (R F).repeated n) :
    Grows R run (R₂.set F r) run₂ := by
  have under : ∀ c, run₁.store.under c = run.store.under c := fun c => by rw [Store.under, bindings, Store.under]
  refine ⟨Nat.le_trans next h.next, fun G hG => ?_, fun G hG => ?_, fun entry he => ?_⟩
  · by_cases hGF : G = F
    · subst hGF
      rw [set_self, (here hG).2.1]
    · rw [R₂.set_of_ne r hGF, h.agree G (Nat.lt_of_lt_of_le hG next), (old G hG hGF).1]
  · by_cases hGF : G = F
    · subst hGF
      obtain ⟨hX, _, n, hn⟩ := here hG
      exact ⟨n, by rw [hX, h.here, under, hn]⟩
    · obtain ⟨hsame, hne⟩ := old G hG hGF
      obtain ⟨n, hn⟩ := h.bodies G (Nat.lt_of_lt_of_le hG next) (hsame ▸ hne)
      rw [hsame, under] at hn
      exact ⟨n, hn⟩
  · rcases h.modules entry he with he | ⟨M, hM, hp⟩
    · exact Or.inl (modules ▸ he)
    · have hMF : F < M := Nat.lt_of_lt_of_le hF hM
      refine Or.inr ⟨M, Nat.le_trans next hM, hp.complete, Outline.PlacedIn.transfer ?_ ?_ hp.placed⟩
      · exact Outline.transfers_set ⟨M, ScopeSet.mem_insert.2 (Or.inl rfl), Nat.le_of_lt hMF⟩
      · exact ⟨hp.placed.lt, R₂.set_of_ne r (Nat.ne_of_gt hMF), 0, by simp⟩

/-- A region that was opened is left with what was declared in it. -/
theorem Step.close {R₂ : Regions} {parts : List Outline} (hv : R.Valid run)
    (hb : ∀ x ∈ b, x < run.store.nextScope) (next : run₁.store.nextScope = run.store.nextScope + 1)
    (bindings : run₁.store.bindings = run.store.bindings) (modules : run₁.modules = run.modules)
    (h : Step (b.insert run.store.nextScope) (R.set run.store.nextScope (fresh b run.store.nextScope)) run₁ R₂ run₂
      (Outline.keys parts)) (hv₂ : R₂.Valid run₂)
    (hparts : Outline.PlacedAll d R₂ run₂.store (b.insert run.store.nextScope) parts) :
    ∃ R', R'.Valid run₂ ∧ Grows R run R' run₂ ∧ Outline.PlacedIn d R' run₂.store b run.store.nextScope parts := by
  generalize hF : run.store.nextScope = F at *
  have hlt : F < run₁.store.nextScope := next ▸ Nat.lt_succ_self F
  have hscopes : (R₂ F).scopes = b.insert F := by rw [h.agree F hlt, set_self]
  have hempty : run₁.store.under (b.insert F) = [] := by
    rw [Store.under, bindings, List.map_eq_nil_iff, List.filter_eq_nil_iff]
    intro c hc heq
    obtain ⟨_, G, hG, hcG⟩ := hv.bound c hc
    have hFG : F ∈ (R G).scopes := hcG ▸ (of_decide_eq_true heq) ▸ ScopeSet.mem_insert.2 (Or.inl rfl)
    exact Nat.not_lt.2 (hv.le G hG F hFG) (hF ▸ hG)
  refine ⟨R₂.set F ⟨b.insert F, Outline.keys parts, Outline.pendingKeys d parts⟩, hv₂.set hscopes.symm, ?_, ?_⟩
  · refine h.grows (hF ▸ Nat.le_of_lt hlt) bindings modules hlt (fun G hG hne => ⟨R.set_of_ne _ hne, ?_⟩) fun hlt' => ?_
    · intro heq
      have hFG : F ∈ (R G).scopes := heq ▸ ScopeSet.mem_insert.2 (Or.inl rfl)
      exact Nat.not_lt.2 (hv.le G hG F hFG) (hF ▸ hG)
    · exact absurd (hF ▸ hlt') (Nat.lt_irrefl _)
  · refine ⟨Nat.lt_of_lt_of_le hlt h.next, hb, by rw [set_self], ?_, ?_⟩
    · rw [set_self]
      exact Or.inl ⟨rfl, rfl, 0, by rw [h.here, hempty]; simp⟩
    · exact hparts.transfer (Outline.transfers_set ⟨F, ScopeSet.mem_insert.2 (Or.inl rfl), Nat.le_refl _⟩)

/-- A region in which parts are placed is read again: either nothing is declared in it, or its body is expanded. -/
theorem Step.reenter {parts parts' : List Outline} (hv : R.Valid run) (hp : Outline.PlacedIn d R run.store c F parts)
    (h : Step (c.insert F) (R.set F ⟨c.insert F, (R F).own, []⟩) run R₁ run₁ ks) (hv₁ : R₁.Valid run₁)
    (hparts : Outline.PlacedAll d R₁ run₁.store (c.insert F) parts')
    (hkeys : Outline.keys parts' = Outline.keys parts ++ ks)
    (hpending : ks = [] ∧ Outline.pendingKeys d parts' = Outline.pendingKeys d parts ∨
      ks = Outline.pendingKeys d parts ∧ Outline.pendingKeys d parts' = []) :
    ∃ R', R'.Valid run₁ ∧ Grows R run R' run₁ ∧ Outline.PlacedIn d R' run₁.store c F parts' := by
  have hscopes : (R F).scopes = (R₁ F).scopes := by rw [h.agree F hp.lt, set_self, hp.scopes]
  have hfits : (R F).Fits d (run₁.store.under (R F).scopes) parts' ∧ ∃ n, ks = (R F).repeated n := by
    rw [hp.scopes, h.here, ← hp.scopes]
    rcases hpending with ⟨rfl, hsame⟩ | ⟨hks, hdone⟩
    · rw [List.append_nil] at hkeys ⊢
      refine ⟨?_, 0, rfl⟩
      unfold Region.Fits
      rw [hkeys, hsame]
      exact hp.fits
    · rcases hp.fits with ⟨hown, hinner, n, hn⟩ | ⟨hall, hnone, n, hn⟩
      · refine ⟨Or.inr ⟨?_, hdone, n, ?_⟩, 1, ?_⟩
        · rw [hkeys, hks, hinner, hown]
        · rw [hn, hks, hinner, List.append_assoc, ← Region.repeated_add, Region.repeated_one]
        · rw [hks, hinner, Region.repeated_one]
      · rw [hnone] at hks
        subst hks
        rw [List.append_nil] at hkeys ⊢
        exact ⟨Or.inr ⟨by rw [hkeys, hall], hdone, n, hn⟩, 0, rfl⟩
  refine ⟨R₁.set F (R F), hv₁.set hscopes, ?_, ?_⟩
  · refine h.grows (Nat.le_refl _) rfl rfl hp.lt (fun G hG hne => ⟨R.set_of_ne _ hne, ?_⟩) fun _ => ?_
    · intro heq
      exact hne (hv.inj hG hp.lt (heq.trans hp.scopes.symm))
    · exact ⟨hp.scopes, rfl, hfits.2⟩
  · refine ⟨Nat.lt_of_lt_of_le hp.lt h.next, hp.above, by rw [set_self, hp.scopes], ?_, ?_⟩
    · rw [set_self]
      exact hfits.1
    · exact hparts.transfer (Outline.transfers_set ⟨F, ScopeSet.mem_insert.2 (Or.inl rfl), Nat.le_refl _⟩)

end Regions

end Hygiene
