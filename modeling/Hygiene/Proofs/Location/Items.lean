import Hygiene.Proofs.Location.Reading

/-!
# Items of modules are read within the texts

Reading and completing items, running modules and binding imports register no text. What is run of a module stands in
its text, and so does the place at which a failure is reported.
-/

namespace Hygiene

open Expand (Located)

variable {sources : Sources} {p : Passes}

/-! ### Reading -/

namespace Parse

/-- Imports are read within the texts. -/
theorem located_importDeclaration : Located sources importDeclaration fun i => ∃ i', i.Alike (.within sources) i' :=
  .of_reads Parallel.importDeclaration

/-- So are exports. -/
theorem located_exportItem (s : Setup) (home : Home) (hp : (locating sources).Ties p p) :
    Located sources (exportItem s home p) (·.Within sources) :=
  .of_reads (Parallel.exportItem (locating_declares s home hp) hp)

end Parse

/-- Completing an item stays within the texts. -/
theorem ModuleItem.located_complete (hp : (locating sources).Ties p p) (item : ModuleItem) (h : item.Within sources) :
    Located sources (item.complete p.body) (·.Within sources) := h.elim fun _ h => Parallel.completeItem hp.body h

/-! ### Running modules -/

/-- The statement that an item runs as is within the texts. -/
theorem ModuleItem.Within.statement {item : ModuleItem} (h : item.Within sources) {s : Statement}
    (hs : item.statement? = some s) : (Demand.within sources).Meets s.content s.lambdas s.sites := by
  obtain ⟨item', h⟩ := h
  cases h with
  | statement h =>
    cases hs
    exact h.meets
  | exportItem he h =>
    rcases he with hd | hf | ⟨ht, he⟩ <;> cases hs
    · exact (Statement.Alike.declaration hd h).meets
    · exact (Statement.Alike.function hf h).meets
    · exact (Statement.Alike.declaration (.mk (.cons (.mk ht (.some he) h) .nil) h) h).meets
  | _ => cases hs

/-- The beginning of a module is a place in its text. -/
theorem ModuleRecord.Within.beginning {record : ModuleRecord} (h : record.Within sources) :
    Site.Within sources ⟨some record.file, ⟨0, 0⟩⟩ := by
  obtain ⟨t, ht⟩ := Option.isSome_iff_exists.1 h.file
  rintro _ ⟨⟩
  exact ⟨t, ht, Nat.le_refl 0, Nat.zero_le _⟩

/-- A module within the texts may be run. -/
theorem ModuleRecord.Within.runs {record : ModuleRecord} (h : record.Within sources) : (Conduct.within sources).Runs record := by
  refine ⟨h.beginning, fun inner hinner => ?_⟩
  obtain ⟨item, hitem, hinner⟩ := List.mem_filterMap.1 hinner
  exact (h.items item hitem).statement hinner

/-- Running modules stays within the texts. -/
theorem Conduct.within_ofModules (sources : Sources) (phase : Phase) : (within sources).OfModules phase where
  records := within_records
  modules h entry he := (h.modules entry he).runs
  instances h := h.instances
  track _ h := { h with }
  keep _ _ h hvalues := { h with instances := fun entry he => (Assoc.mem_insert he).elim (· ▸ hvalues) (h.instances entry) }

namespace Expand

/-- Binding an imported name: the transformer and the value that it may stand for are within the texts. -/
theorem located_bindImport (s : Setup) {record : ModuleRecord} (hrecord : record.Within sources) (imported : Import)
    {wanted : String × Token × Site} (hw : wanted.2.2.Within sources) :
    Located sources (bindImport s record imported wanted) fun _ => True := by
  unfold bindImport
  dsimp only
  split
  · exact Located.fail hw _
  · refine .bind (located_bind _ _ _) fun id _ => .bind .get fun run hrun => ?_
    split
    · next t ht =>
      obtain ⟨key, hmem⟩ := Assoc.exists_mem_of_get? ht
      exact located_defineTransformer id (hrun.transformers _ hmem).1 (hrun.transformers _ hmem).2
    · exact .pure trivial
  · refine .ite (fun _ => ?_) fun _ => (located_bind _ _ _).discard
    refine .bind .get fun run _ => .bind (Conduct.keeps_instantiate (Conduct.within_ofModules _ _) s _ record hrecord.runs) fun values hvalues => ?_
    refine .bind (located_bind _ _ _) fun id _ => .modify fun run' hrun' => { hrun' with values := fun entry he => ?_ }
    rcases Assoc.mem_insert he with heq | he
    · rw [heq]
      exact Value.meets_getD fun v hv => Value.meets_of_get? hvalues hv
    · exact hrun'.values entry he

end Expand

/-- What an import asks for stands in it. -/
theorem Import.Alike.wanted {i i' : Import} (h : i.Alike (.within sources) i') : ∀ w ∈ i.wanted, w.2.2.Within sources := by
  obtain ⟨hbinding, hnamed, -⟩ := h
  intro w hw
  simp only [Import.wanted, List.mem_append, List.mem_map, Option.mem_toList] at hw
  rcases hw with ⟨t, ht, rfl⟩ | ⟨s, hs, rfl⟩
  · exact (Likeness.token?_within hbinding t ht).site
  · exact Likeness.of_alike_left (P := (·.site.Within sources)) (by rintro _ _ ⟨_, _, h⟩; exact h.2)
      hnamed s hs

end Hygiene
