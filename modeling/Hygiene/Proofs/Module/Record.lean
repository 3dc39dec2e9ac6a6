import Hygiene.Module.Record
import Hygiene.Proofs.Assoc
import Hygiene.Proofs.Scope.Resolve

/-!
# Records of expanded modules

A record is made of the items of its module. What it exports as a transformer is bound as one.
-/

namespace Hygiene

open List

variable {b : Binding} {specifiers : List ExportSpecifier} {ident : Token}

namespace ModuleRecord

/-- What a record exports as a transformer is bound as one. -/
def ExportsFrom (store : Store) (r : ModuleRecord) : Prop :=
  ∀ e ∈ r.transformerExports, ∃ b ∈ store.bindings.toList, b.kind.isTransformer = true ∧ b.id = e.2

variable {store : Store} {r r' : ModuleRecord}

theorem ExportsFrom.addExport (h : r.ExportsFrom store) (name : String)
    (hb : b ∈ store.bindings.toList) : (r.addExport name b).ExportsFrom store := by
  unfold ModuleRecord.addExport
  split
  · next hk =>
    intro e he
    rcases Assoc.mem_insert he with heq | he
    · exact ⟨b, hb, hk, heq.symm⟩
    · exact h e he
  · exact h

theorem items_addExport (r : ModuleRecord) (name : String) (b : Binding) : (r.addExport name b).items = r.items := by
  unfold ModuleRecord.addExport
  split <;> rfl

theorem mem_of_resolveIdent {t : Token} (h : store.resolveIdent t = some b) :
    b ∈ store.bindings.toList := by
  obtain ⟨name, _, h⟩ := Option.bind_eq_some_iff.1 h
  exact (Store.resolve_visible h).1

theorem ExportsFrom.addSpecifiers (h : r.ExportsFrom store)
    (hr : addSpecifiers store specifiers r = .ok r') : r'.ExportsFrom store ∧ r'.items = r.items := by
  induction specifiers generalizing r with
  | nil =>
    cases hr
    exact ⟨h, rfl⟩
  | cons s rest ih =>
    rw [ModuleRecord.addSpecifiers] at hr
    split at hr
    · next b hb =>
      have := ih (h.addExport _ (mem_of_resolveIdent hb)) hr
      rwa [items_addExport] at this
    · cases hr

theorem ExportsFrom.foldl {bs : List Binding} (h : r.ExportsFrom store) (hbs : ∀ b ∈ bs, b ∈ store.bindings.toList) :
    (bs.foldl (fun r b => r.addExport b.name b) r).ExportsFrom store ∧
      (bs.foldl (fun r b => r.addExport b.name b) r).items = r.items := by
  induction bs generalizing r with
  | nil => exact ⟨h, rfl⟩
  | cons b bs ih =>
    have := ih (h.addExport b.name (hbs b mem_cons_self)) fun c hc => hbs c (mem_cons_of_mem _ hc)
    rwa [items_addExport] at this

theorem ExportsFrom.addItems {items : List ModuleItem} (h : r.ExportsFrom store)
    (hr : addItems store items r = .ok r') : r'.ExportsFrom store ∧ r'.items = r.items := by
  induction items generalizing r with
  | nil =>
    cases hr
    exact ⟨h, rfl⟩
  | cons item rest ih =>
    cases item with
    | importItem imported => exact ih h hr
    | statement inner => exact ih h hr
    | exportItem exported site =>
      have hbs : ∀ b ∈ (declared exported).filterMap store.resolveIdent, b ∈ store.bindings.toList := by
        intro b hb
        obtain ⟨t, _, ht⟩ := mem_filterMap.1 hb
        exact mem_of_resolveIdent ht
      obtain ⟨h₁, hitems⟩ := h.foldl hbs
      exact hitems ▸ ih h₁ hr
    | exportList specifiers site =>
      rw [ModuleRecord.addItems] at hr
      cases hs : ModuleRecord.addSpecifiers store specifiers r with
      | error ident =>
        rw [hs] at hr
        cases hr
      | ok r₁ =>
        rw [hs] at hr
        obtain ⟨h₁, hitems⟩ := h.addSpecifiers hs
        exact hitems ▸ ih h₁ hr

/-- The record of expanded items holds these items, and exports transformers that are bound. -/
theorem ofItems_ok {specifier : String} {file : Nat} {dialect : Dialect} {items : List ModuleItem}
    (h : ofItems store specifier file dialect items = .ok r) : r.ExportsFrom store ∧ r.items = items :=
  ExportsFrom.addItems (r := { specifier, file, dialect, items }) (fun _ h => by cases h) h

theorem exists_of_addSpecifiers_error
    (h : addSpecifiers store specifiers r = .error ident) : ∃ e ∈ specifiers, e.inner = ident := by
  induction specifiers generalizing r with
  | nil => cases h
  | cons e rest ih =>
    rw [addSpecifiers] at h
    split at h
    · obtain ⟨e', he', hinner⟩ := ih h
      exact ⟨e', mem_cons_of_mem _ he', hinner⟩
    · cases h
      exact ⟨e, mem_cons_self, rfl⟩

/-- An identifier that is exported but not bound is one of an export list. -/
theorem exists_of_addItems_error {items : List ModuleItem}
    (h : addItems store items r = .error ident) :
    ∃ specifiers site, .exportList specifiers site ∈ items ∧ ∃ e ∈ specifiers, e.inner = ident := by
  induction items generalizing r with
  | nil => cases h
  | cons item rest ih =>
    have hlater : (∃ r, addItems store rest r = .error ident) →
        ∃ specifiers site, .exportList specifiers site ∈ item :: rest ∧ ∃ e ∈ specifiers, e.inner = ident := by
      rintro ⟨r, h⟩
      obtain ⟨specifiers, site, hmem, he⟩ := ih h
      exact ⟨specifiers, site, mem_cons_of_mem _ hmem, he⟩
    cases item with
    | importItem imported => exact hlater ⟨_, h⟩
    | statement inner => exact hlater ⟨_, h⟩
    | exportItem exported site => exact hlater ⟨_, h⟩
    | exportList specifiers site =>
      rw [addItems] at h
      cases hs : addSpecifiers store specifiers r with
      | error ident' =>
        rw [hs] at h
        cases h
        exact ⟨specifiers, site, mem_cons_self, exists_of_addSpecifiers_error hs⟩
      | ok r₁ =>
        rw [hs] at h
        exact hlater ⟨_, h⟩

section Kept

variable {β : Type} {f : ModuleRecord → β} (hf : ∀ r name b, f (addExport r name b) = f r)
include hf

theorem kept_addSpecifiers (h : addSpecifiers store specifiers r = .ok r') :
    f r' = f r := by
  induction specifiers generalizing r with
  | nil =>
    cases h
    rfl
  | cons s rest ih =>
    rw [addSpecifiers] at h
    split at h
    · exact (ih h).trans (hf _ _ _)
    · cases h

theorem kept_foldl (bs : List Binding) : f (bs.foldl (fun r b => r.addExport b.name b) r) = f r := by
  induction bs generalizing r with
  | nil => rfl
  | cons b bs ih => exact ih.trans (hf _ _ _)

/-- What no export changes is as before when the exports of items have been added. -/
theorem kept_addItems {items : List ModuleItem} (h : addItems store items r = .ok r') : f r' = f r := by
  induction items generalizing r with
  | nil =>
    cases h
    rfl
  | cons item rest ih =>
    cases item with
    | importItem imported => exact ih h
    | statement inner => exact ih h
    | exportItem exported site => exact (ih h).trans (kept_foldl hf _)
    | exportList specifiers site =>
      rw [addItems] at h
      cases hs : addSpecifiers store specifiers r with
      | error ident =>
        rw [hs] at h
        cases h
      | ok r₁ =>
        rw [hs] at h
        exact (ih h).trans (kept_addSpecifiers hf hs)

end Kept

section Made

variable {specifier : String} {file : Nat} {dialect : Dialect} {items : List ModuleItem}
  (h : ofItems store specifier file dialect items = .ok r)
include h

/-- The record of expanded items has the specifier that it is made for. -/
theorem specifier_ofItems : r.specifier = specifier := by
  refine kept_addItems (f := ModuleRecord.specifier) (fun r name b => ?_) h
  unfold addExport
  split <;> rfl

/-- The record of expanded items has the text that it is made for. -/
theorem file_ofItems : r.file = file := by
  refine kept_addItems (f := ModuleRecord.file) (fun r name b => ?_) h
  unfold addExport
  split <;> rfl

end Made

end ModuleRecord

/-! ### What a record exports -/

/-- The names that an item exports, with the identifiers that stand for them. -/
def ModuleItem.exports : ModuleItem → List (String × Token)
  | .exportItem exported _ => (ModuleRecord.declared exported).map fun ident => (ident.name, ident)
  | .exportList specifiers _ => specifiers.map fun e => (e.exportName, e.inner)
  | .importItem _ => []
  | .statement _ => []

/-- The binding that a name is exported for. -/
def Store.exported? (store : Store) (entry : String × Token) : Option (String × Binding) :=
  (store.resolveIdent entry.2).map (entry.1, ·)

namespace ModuleRecord

variable {store : Store} {r r' : ModuleRecord} {name : String} {entries : List (String × Binding)}

/-- The record with exports of bindings added. -/
def addExports (r : ModuleRecord) (entries : List (String × Binding)) : ModuleRecord :=
  entries.foldl (fun r entry => r.addExport entry.1 entry.2) r

theorem addExports_append (r : ModuleRecord) (first second : List (String × Binding)) :
    r.addExports (first ++ second) = (r.addExports first).addExports second := foldl_append

theorem addSpecifiers_eq (h : addSpecifiers store specifiers r = .ok r') :
    r' = r.addExports ((specifiers.map fun e => (e.exportName, e.inner)).filterMap store.exported?) := by
  induction specifiers generalizing r with
  | nil =>
    cases h
    rfl
  | cons s rest ih =>
    rw [addSpecifiers] at h
    split at h
    · next b hb =>
      rw [ih h, map_cons, filterMap_cons_some (b := (s.exportName, b)) (by simp [Store.exported?, hb])]
      rfl
    · cases h

/-- A declaration is exported under the name of what it declares. -/
theorem foldl_declared (idents : List Token) (r : ModuleRecord) :
    (idents.filterMap store.resolveIdent).foldl (fun r b => r.addExport b.name b) r =
      r.addExports ((idents.map fun ident => (ident.name, ident)).filterMap store.exported?) := by
  induction idents generalizing r with
  | nil => rfl
  | cons ident rest ih =>
    rw [map_cons]
    cases hb : store.resolveIdent ident with
    | none => rw [filterMap_cons_none hb, filterMap_cons_none (by simp [Store.exported?, hb]), ih]
    | some b =>
      have hname : b.name = ident.name := by
        obtain ⟨name, hident, hres⟩ := Option.bind_eq_some_iff.1 hb
        rw [(Binding.isVisible_iff.1 (Store.resolve_visible hres).2).1, Tree.name, hident]
        rfl
      rw [filterMap_cons_some hb,
        filterMap_cons_some (b := (ident.name, b)) (by simp [Store.exported?, hb]), foldl_cons, ih, hname]
      rfl

theorem addItems_eq {items : List ModuleItem} (h : addItems store items r = .ok r') :
    r' = r.addExports ((items.flatMap ModuleItem.exports).filterMap store.exported?) := by
  induction items generalizing r with
  | nil =>
    cases h
    rfl
  | cons item rest ih =>
    rw [flatMap_cons, filterMap_append, addExports_append]
    cases item with
    | importItem imported => exact ih h
    | statement inner => exact ih h
    | exportItem exported site =>
      rw [addItems, foldl_declared] at h
      exact ih h
    | exportList specifiers site =>
      rw [addItems] at h
      cases hs : addSpecifiers store specifiers r with
      | error ident =>
        rw [hs] at h
        cases h
      | ok r₁ =>
        rw [hs] at h
        rw [ih h, addSpecifiers_eq hs]
        rfl

theorem export?_addExport_of_ne {other : String} (h : other ≠ name) (b : Binding) :
    (r.addExport other b).export? name = r.export? name := by
  unfold addExport
  split <;> simp [export?, Assoc.get?_insert, h]

/-- A name that is not exported yet is exported for the binding. -/
theorem export?_addExport_self (h : r.export? name = none) (b : Binding) :
    (r.addExport name b).export? name = some (b.id, b.kind.isTransformer) := by
  unfold export? at h
  split at h
  · cases h
  · next hnone =>
    unfold addExport
    split
    · next hk => simp [export?, Assoc.get?_insert, hk]
    · next hk => simp [export?, Assoc.get?_insert, hnone, hk]

theorem export?_addExports_of_not_mem (h : name ∉ entries.map (·.1)) :
    (r.addExports entries).export? name = r.export? name := by
  induction entries generalizing r with
  | nil => rfl
  | cons entry rest ih =>
    obtain ⟨hne, hrest⟩ : name ≠ entry.1 ∧ name ∉ rest.map (·.1) := by simpa using h
    exact (ih hrest).trans (export?_addExport_of_ne (Ne.symm hne) entry.2)

theorem export?_addExports (hnodup : (entries.map (·.1)).Nodup)
    (hmem : (name, b) ∈ entries) (hnew : r.export? name = none) :
    (r.addExports entries).export? name = some (b.id, b.kind.isTransformer) := by
  induction entries generalizing r with
  | nil => cases hmem
  | cons entry rest ih =>
    obtain ⟨hnot, hrest⟩ := nodup_cons.1 hnodup
    rcases mem_cons.1 hmem with rfl | hmem
    · exact (export?_addExports_of_not_mem hnot).trans (export?_addExport_self hnew b)
    · refine ih hrest hmem ((export?_addExport_of_ne ?_ entry.2).trans hnew)
      rintro rfl
      exact hnot (mem_map.2 ⟨_, hmem, rfl⟩)

/-- The names that are exported for bindings are among all names that are exported. -/
theorem sublist_exported (store : Store) (entries : List (String × Token)) :
    ((entries.filterMap store.exported?).map (·.1)).Sublist (entries.map (·.1)) := by
  induction entries with
  | nil => exact .slnil
  | cons entry rest ih =>
    cases hb : store.resolveIdent entry.2 with
    | none =>
      rw [filterMap_cons_none (by simp [Store.exported?, hb])]
      exact ih.cons _
    | some b =>
      rw [filterMap_cons_some (b := (entry.1, b)) (by simp [Store.exported?, hb])]
      exact ih.cons_cons _

/-- A module that exports no name twice exports a name for the binding that its identifier refers to. -/
theorem export?_of_ofItems {specifier : String} {file : Nat} {dialect : Dialect} {items : List ModuleItem}
    (h : ofItems store specifier file dialect items = .ok r) (hnodup : ((items.flatMap ModuleItem.exports).map (·.1)).Nodup) (hmem : (name, ident) ∈ items.flatMap ModuleItem.exports)
    (hb : store.resolveIdent ident = some b) : r.export? name = some (b.id, b.kind.isTransformer) := by
  rw [addItems_eq h]
  refine export?_addExports ((sublist_exported store _).nodup hnodup) (mem_filterMap.2 ⟨_, hmem, ?_⟩) rfl
  simp [Store.exported?, hb]

end ModuleRecord

end Hygiene
