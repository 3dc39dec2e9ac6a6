import Hygiene.Proofs.Loading.Order
import Hygiene.Proofs.Location.Items
import Hygiene.Proofs.Token.Bounds

/-!
# Modules within the texts

A module is registered under its specifier before it is read. No text was registered under that name before, so the
tokens of the module are within its own text. Later texts extend the earlier ones, so what was within them stays so.
-/

namespace Hygiene

open Expand (Located Yields)

variable {sources sources' : Sources} {run run' : Run}

/-- A stream stays within more texts. -/
theorem Stream.Within.mono (h : sources.Extends sources') {stream : Stream} (hs : stream.Within sources) :
    stream.Within sources' := ⟨fun t ht => (hs.before t ht).mono h, fun t ht => (hs.after t ht).mono h⟩

/-- So does a module. -/
theorem ModuleRecord.Within.mono (h : sources.Extends sources') {record : ModuleRecord} (hr : record.Within sources) :
    record.Within sources' := by
  obtain ⟨t, ht⟩ := Option.isSome_iff_exists.1 hr.file
  exact ⟨fun item hi => (hr.items item hi).mono h, Option.isSome_iff_exists.2 ⟨t, h.text? ht⟩⟩

/-- Registering texts keeps everything that the run holds within the texts. -/
theorem Run.Within.mono (h : sources.Extends sources') (hr : run.Within sources) :
    Run.Within sources' { run with sources := sources' } where
  sources_eq := rfl
  heap := hr.heap.within_mono h
  values entry he := (hr.values entry he).within_mono h
  transformers entry he := ⟨(hr.transformers entry he).1.within_mono h, (hr.transformers entry he).2.mono h⟩
  instances entry he field hf := (hr.instances entry he field hf).within_mono h
  modules entry he := (hr.modules entry he).mono h
  origins o ho l hl := (hr.origins o ho l hl).mono h
  diagnostics d hd l hl := (hr.diagnostics d hd l hl).mono h

/-- Everything in the run is within its texts, and each text is the one of a module that has been expanded or is being
expanded. -/
structure Run.Placed (run : Run) : Prop where
  within : run.Within run.sources
  named : ∀ t ∈ run.sources.texts, t.name ∈ run.loads.known

/-- A new run is placed. -/
theorem Run.placed_new : Run.Placed {} := by
  refine ⟨⟨rfl, Heap.meets_empty, ?_, ?_, ?_, ?_, ?_, ?_⟩, ?_⟩ <;> exact fun _ h => nomatch h

/-- What registers no text and does nothing about modules leaves a run placed. -/
theorem Run.Placed.aside (h : run.Placed) (hwithin : run'.Within run'.sources) (hsources : run'.sources = run.sources)
    (hloads : run'.loads = run.loads) : run'.Placed :=
  ⟨hwithin, fun t ht => by
    rw [hloads]
    exact h.named t (hsources ▸ ht)⟩

/-- What registers no text ends within the texts of the run that it leaves. -/
theorem Expand.Located.yields {α : Type} {x : Expand α} {P : α → Prop} (hx : Located run.sources x P)
    (hrun : run.Within run.sources) : Yields run x
      (fun a run' => run'.Within run'.sources ∧ run'.sources = run.sources ∧ P a)
      fun e run' => run'.Within run'.sources ∧ e.Within run'.sources := by
  refine (hx run hrun).imp (fun a run' ha => ?_) fun e run' he => ?_
  · have hsources := ha.1.sources_eq
    exact ⟨hsources ▸ ha.1, hsources, ha.2⟩
  · have hsources := he.1.sources_eq
    exact hsources ▸ he

/-- An error at a site within the texts is within them. -/
theorem Site.Within.error {site : Site} (h : site.Within run.sources) (fault : ExpandFault) :
    ExpandError.Within run.sources ⟨fault, run.sources.locateSite site⟩ := fun _ hl => h.locateSite hl

/-- The fault of a pragma is at its first token. -/
theorem within_splitPragma {tokens : List Token} {fault : PragmaFault} {site : Site}
    (h : splitPragma tokens = .error (fault, site)) (ht : ∀ t ∈ tokens, t.Within sources) : site.Within sources := by
  unfold splitPragma at h
  split at h
  · next hash lang rest =>
    have hhash : hash.site.Within sources := (ht hash List.mem_cons_self).site
    split at h
    · split at h
      · split at h <;> cases h
        exact hhash
      · cases h
        exact hhash
    · cases h
  · cases h

/-- The tokens of a text that is registered are within the texts, and so is what is wrong with it. -/
theorem Expand.located_readModule (specifier : String) {text : String} {file : Nat} {t : SourceText}
    (ht : sources.text? file = some t) (htext : t.text = text) (dialect : Dialect) :
    Located sources (readModule specifier text file dialect) fun r => ∀ t ∈ r.2, t.Within sources := by
  unfold readModule
  split
  · next e he =>
    refine .fail ?_ _
    rintro _ ⟨⟩
    exact ⟨t, ht, htext ▸ read_error_fits he⟩
  · next trees htrees =>
    have htokens := Token.within_piecesAll.1 (read_within htrees ht htext)
    split
    · next hfault => exact .fail (within_splitPragma hfault htokens) _
    · next hrest => exact .pure fun t hmem => htokens t (splitPragma_subset hrest hmem)

/-- A name that is exported but not declared is one of an item. -/
theorem within_undeclaredExport {store : Store} {specifier : String} {file : Nat} {dialect : Dialect} {items : List ModuleItem}
    {ident : Token} (h : ModuleRecord.ofItems store specifier file dialect items = .error ident)
    (hitems : ∀ item ∈ items, item.Within sources) : ident.site.Within sources := by
  obtain ⟨specifiers, site, hmem, e, he, rfl⟩ := ModuleRecord.exists_of_addItems_error h
  have ⟨_, .exportList hl _⟩ := hitems _ hmem
  have hinner := Likeness.of_alike_left (P := (·.inner.Within sources)) (fun | _, _, .mk h _ _ => h.2) hl e he
  exact hinner.site

end Hygiene
