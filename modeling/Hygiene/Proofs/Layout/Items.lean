import Hygiene.Proofs.Layout.Matches
import Hygiene.Proofs.Parallel.Output

/-!
# Modules without sites

The items of a module read the same without sites, and the record that is made of them has the same exports.
-/

namespace Hygiene

open List

open HasSites (unplaced)

/-! ### Items -/

variable {s : Setup} {p : Passes} {home : Home}

/-- What a declaration gives is what was read. -/
theorem Parse.declared_eq_ok {binding : Token} {recursive : Bool} {x : Parse Expression} {stream : Stream} {run run' : Run}
    {r : Expression × Stream} (h : declared s home binding recursive x stream run = .ok r run') :
    ∃ stream₁ stream₂, (x stream₁).MayGive (r.1, stream₂) := by
  obtain ⟨_, stream₁, run₁, _, h⟩ := bind_eq_ok h
  obtain ⟨init, stream₂, run₂, hinit, h⟩ := bind_eq_ok h
  obtain ⟨_, _, _, _, h⟩ := bind_eq_ok h
  cases h
  exact ⟨stream₁, stream₂, run₁, run₂, hinit⟩

/-- The declaration of a transformer is taken down before anything else. -/
theorem matches_declares (hr : (recallLaw s).Ties p p) (hp : matching.Ties p p) : matching.Declares s s home p p := by
  intro hs kind binding binding' _ stream stream' _
  refine ⟨Law.transformerDeclarator ((recallLaw s).covers home) hr hs kind binding stream, ?_, ?_⟩
  · rintro r ⟨run, run', heq⟩
    rw [Parse.transformerDeclarator_eq] at heq
    obtain ⟨_, _, _, _, heq⟩ := Parse.bind_eq_ok heq
    obtain ⟨_, _, _, _, heq⟩ := Parse.bind_eq_ok heq
    obtain ⟨init, _, _, hdeclared, heq⟩ := Parse.bind_eq_ok heq
    obtain ⟨_, _, _, _, heq⟩ := Parse.bind_eq_ok heq
    cases heq
    obtain ⟨_, _, _, _, hread⟩ := Parse.declared_eq_ok hdeclared
    obtain ⟨_, _, _, _, hread⟩ := Parse.bind_eq_ok hread
    obtain ⟨first, stream₁, _, hfirst, hread⟩ := Parse.bind_eq_ok hread
    obtain ⟨_, _, _, hcomplete, hread⟩ := Parse.bind_eq_ok hread
    obtain ⟨_, _, _, _, hread⟩ := Parse.bind_eq_ok hread
    cases hread
    obtain ⟨_, _, hcomplete, hlift⟩ := Expand.bind_eq_ok hcomplete
    cases hlift
    obtain ⟨r₁, halike, _⟩ := (hp.assignment _ _ (Stream.alike_unplaced _)).results _ ⟨_, _, hfirst⟩
    obtain ⟨init', hinit⟩ := (Parallel.complete hp.body halike).results _ ⟨_, _, hcomplete⟩
    exact ⟨(⟨_, some init', .unknown⟩, _), .mk rfl (.some hinit) rfl, Stream.alike_unplaced _⟩
  · intro run run' _ hself
    have hrest : Expand.Recalls (Parse.transformerMeaning s home p kind binding stream) :=
      Law.transformerMeaning ((recallLaw s).covers home) hr hs kind binding stream
    rw [Parse.transformerDeclarator_eq] at hself
    have hmem : Event.declaring binding ∈ ({ run with events := .declaring binding :: run.events } : Run).events :=
      mem_cons_self
    exact absurd ((hrest.final _).events.subset hmem) (hself.undeclared binding)

/-- An import is taken down when it begins. -/
theorem matches_processImport (hl : (recallLaw s).Loads p p) (imported imported' : Import) :
    Expand.Matches Eq (Expand.processImport s p imported) (Expand.processImport s p imported') := by
  refine ⟨(recallLaw s).processImport imported hl.rel hl.keeps, fun _ _ => ⟨_, rfl⟩, fun _ hself => ?_⟩
  have hrest : Expand.Recalls (do
      let record ← p.load imported.specifier imported.site
      imported.wanted.forM (Expand.bindImport s record imported)) :=
    .bind (hl.rel _ _) fun record => .forM (Expand.recalls_bindImport s record imported)
  exact absurd (hself.of_recalls (hrest.final _)).unrequested (cons_ne_nil _ _)

theorem Expand.matches_items (s : Setup) (home : Home) {ts ts' : List Token} (hts : Forall₂ Likeness.unplaced.token ts ts') :
    Matches (Forall₂ (ModuleItem.Alike .unplaced)) (items s home ts) (items s home ts') := by
  have hr : ∀ limit, (recallLaw s).Ties (passes s limit home) (passes s limit home) := fun limit =>
    (recallLaw s).ties_passes limit ((recallLaw s).covers home)
  have hp := matching.ties_passes (matches_invokeHere s) (fun limit => matches_declares (hr limit)) s.limit
  exact Parallel.expandItems (matches_invokeHere s) (matches_declares (hr _) hp)
    (fun i i' _ => matches_processImport ((recallLaw s).loads_passes _ _) i i') hp hts

/-! ### Exports -/

/-- In stores that agree, an identifier refers to nothing in both, or to bindings that agree. -/
theorem Store.resolveIdent_alike {store store' : Store} (h : unplaced store = unplaced store') (ident : Token) :
    store.resolveIdent ident = none ∧ store'.resolveIdent (unplaced ident) = none ∨ ∃ b b',
      store.resolveIdent ident = some b ∧ store'.resolveIdent (unplaced ident) = some b' ∧ unplaced b = unplaced b' := by
  have hsame : unplaced (store.resolveIdent ident) = unplaced (store'.resolveIdent (unplaced ident)) := by
    rw [← resolveIdent_unplaced, ← resolveIdent_unplaced, h, Token.unplaced_unplaced]
  cases hb : store.resolveIdent ident with
  | none =>
    rw [hb] at hsame
    exact Or.inl ⟨rfl, Option.map_eq_none_iff.1 hsame.symm⟩
  | some b =>
    rw [hb] at hsame
    obtain ⟨b', hb', heq⟩ := Option.map_eq_some_iff.1 hsame.symm
    exact Or.inr ⟨b, b', rfl, hb', heq.symm⟩

/-- The records have the same exports, and items that are alike without sites. -/
structure ModuleRecord.Alike (record record' : ModuleRecord) : Prop where
  file : record.file = record'.file
  runtimeExports : record.runtimeExports = record'.runtimeExports
  transformerExports : record.transformerExports = record'.transformerExports
  items : Forall₂ (ModuleItem.Alike .unplaced) record.items record'.items

/-- The records are alike, or the exports that have no binding are. -/
def SameExports : Except Token ModuleRecord → Except Token ModuleRecord → Prop
  | .ok record, .ok record' => record.Alike record'
  | .error ident, .error ident' => unplaced ident = ident'
  | _, _ => False

namespace ModuleRecord

variable {store store' : Store} {record record' : ModuleRecord}

/-- The exports of a record do not depend on sites. -/
theorem Alike.addExport (h : record.Alike record') (name : String) {b b' : Binding} (hb : unplaced b = unplaced b') :
    (record.addExport name b).Alike (record'.addExport name b') := by
  have hkind : b.kind = b'.kind := (congrArg Binding.kind hb :)
  have hid : b.id = b'.id := (congrArg Binding.id hb :)
  unfold ModuleRecord.addExport
  rw [hkind, hid]
  split
  · exact { h with transformerExports := by dsimp only; rw [h.transformerExports] }
  · exact { h with runtimeExports := by dsimp only; rw [h.runtimeExports] }

theorem sameExports_addSpecifiers (hstore : unplaced store = unplaced store') {l l' : List ExportSpecifier}
    (hl : Forall₂ (ExportSpecifier.Alike .unplaced) l l') (h : record.Alike record') :
    SameExports (addSpecifiers store l record) (addSpecifiers store' l' record') := by
  induction hl generalizing record record' with
  | nil => exact h
  | @cons specifier specifier' _ _ hs _ ih =>
    have hinner : unplaced specifier.inner = specifier'.inner := by
      obtain ⟨hinner, _, _⟩ := hs
      exact hinner
    rw [addSpecifiers, addSpecifiers, ← hinner]
    rcases Store.resolveIdent_alike hstore specifier.inner with ⟨hnone, hnone'⟩ | ⟨b, b', hb, hb', hsame⟩
    · rw [hnone, hnone']
      exact rfl
    · rw [hb, hb', hs.exportName]
      exact ih (h.addExport _ hsame)

/-- What alike exports declare. -/
theorem declared_unplaced {e e' : ExportDeclaration} (h : e.Alike .unplaced e') : unplaced (declared e) = declared e' := by
  cases h with
  | @declaration d d' hd =>
    obtain ⟨hl, _⟩ := hd
    rw [declared, declared]
    induction hl with
    | nil => rfl
    | cons h _ ih =>
      obtain ⟨hbinding, _, _⟩ := h
      exact congrArg₂ List.cons hbinding ih
  | function hf =>
    obtain ⟨_, hname, _, _, _, _⟩ := hf
    cases hname with
    | none => rfl
    | some hname => exact congrArg (· :: []) hname
  | defaultValue hbinding _ => exact congrArg (· :: []) hbinding

theorem Alike.addDeclared (hstore : unplaced store = unplaced store') (idents : List Token) (h : record.Alike record') :
    ((idents.filterMap store.resolveIdent).foldl (fun r b => r.addExport b.name b) record).Alike
      (((unplaced idents).filterMap store'.resolveIdent).foldl (fun r b => r.addExport b.name b) record') := by
  induction idents generalizing record record' with
  | nil => exact h
  | cons ident idents ih =>
    rw [unplaced_cons]
    rcases Store.resolveIdent_alike hstore ident with ⟨hnone, hnone'⟩ | ⟨b, b', hb, hb', hsame⟩
    · rw [filterMap_cons_none hnone, filterMap_cons_none hnone']
      exact ih h
    · have hname : b.name = b'.name := (congrArg Binding.name hsame :)
      rw [filterMap_cons_some hb, filterMap_cons_some hb', foldl_cons, foldl_cons, ← hname]
      exact ih (h.addExport _ hsame)

theorem sameExports_addItems (hstore : unplaced store = unplaced store') {items items' : List ModuleItem}
    (hitems : Forall₂ (ModuleItem.Alike .unplaced) items items') (h : record.Alike record') :
    SameExports (addItems store items record) (addItems store' items' record') := by
  induction hitems generalizing record record' with
  | nil => exact h
  | cons hitem _ ih =>
    cases hitem with
    | importItem _ => exact ih h
    | statement _ => exact ih h
    | exportItem he _ =>
      rw [addItems, addItems, ← declared_unplaced he]
      exact ih (h.addDeclared hstore _)
    | @exportList l l' _ _ hl _ =>
      have hsame := sameExports_addSpecifiers hstore hl h
      rw [addItems, addItems]
      generalize addSpecifiers store l record = r, addSpecifiers store' l' record' = r' at hsame
      cases r <;> cases r' <;> first | exact ih hsame | exact hsame | exact False.elim hsame

end ModuleRecord

end Hygiene
