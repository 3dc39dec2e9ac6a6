import Hygiene.Module.Loader
import Hygiene.Proofs.Loading.Upkeep

/-!
# Imports and exports of the output

The imported names in the output are those that stand for runtime bindings, and a default binding also when it stands
for a transformer. Export lists keep every name that stands for no transformer, also those that were imported for
compile-time code.
-/

namespace Hygiene

open List

variable {record : ModuleRecord} {run' : Run} {wanted : String × Token × Site}

variable {i : Import} {run : Run}

/-! ### Imports are carried out -/

/-- What an import binds a runtime export to. -/
def Import.kind (i : Import) (name : String) : BindingKind :=
  if i.forSyntax then .compileTimeImport i.specifier name else .runtimeImport i.specifier name

/-- A binding was made for a name that the import asks for. -/
def Import.Entered (store : Store) (i : Import) (wanted : String × Token × Site) : Prop :=
  ∃ b ∈ store.bindings.toList, b.name = wanted.2.1.name ∧ b.scopes = wanted.2.1.scopes ∧ b.hiddenFrom = none ∧
    (b.kind = .transformer ∨ b.kind = i.kind wanted.1)

/-- The import has bound identifiers to all that it asks for. -/
structure Import.Carried (store : Store) (i : Import) : Prop where
  isIdent : ∀ t ∈ i.bindings, t.isIdent = true
  entered : ∀ w ∈ i.wanted, i.Entered store w

theorem Import.Entered.grows (h : i.Entered run.store wanted)
    (hg : run.Grows run') : i.Entered run'.store wanted := by
  obtain ⟨b, hb, hrest⟩ := h
  exact ⟨b, hg.bindings.subset hb, hrest⟩

theorem Import.Carried.grows (h : i.Carried run.store) (hg : run.Grows run') :
    i.Carried run'.store := ⟨h.isIdent, fun w hw => (h.entered w hw).grows hg⟩

namespace Expand

variable {s : Setup}

theorem entered_of_bindImport {imported : Import} {run : Run}
    {u : Unit} (h : bindImport s record imported wanted run = .ok u run') : imported.Entered run'.store wanted := by
  obtain ⟨name, binding, site⟩ := wanted
  have hentered (run : Run) {kind : BindingKind} (hkind : kind = .transformer ∨ kind = imported.kind name) :
      imported.Entered (afterBind run binding kind false).store (name, binding, site) :=
    ⟨_, mem_of_getElem? (getElem?_afterBind run binding kind false), rfl, rfl, rfl, hkind⟩
  unfold bindImport at h
  dsimp only at h
  generalize record.export? name = exported at h
  match exported, h with
  | none, h => cases h
  | some (exported, true), h =>
    obtain ⟨id, run₁, hbind, h⟩ := bind_eq_ok h
    rw [bind_eq] at hbind
    cases hbind
    obtain ⟨_, _, hget, h⟩ := bind_eq_ok h
    cases hget
    generalize Registry.transformer? _ exported = meaning at h
    cases meaning <;> cases h <;> exact hentered run (Or.inl rfl)
  | some (_, false), h =>
    dsimp only at h
    split at h
    · next hfor =>
      obtain ⟨_, _, hget, h⟩ := bind_eq_ok h
      obtain ⟨values, run₁, _, h⟩ := bind_eq_ok h
      obtain ⟨id, run₂, hbind, h⟩ := bind_eq_ok h
      rw [bind_eq] at hbind
      cases hbind
      cases h
      exact hentered run₁ (Or.inr (if_pos hfor).symm)
    · next hfor =>
      obtain ⟨id, run₁, hbind, h⟩ := bind_eq_ok (x := bind binding _ false) (f := fun _ => pure ()) h
      rw [bind_eq] at hbind
      cases hbind
      cases h
      exact hentered run (Or.inr (if_neg hfor).symm)

end Expand

/-- The imports of all modules are carried out. -/
def linkUpkeep (s : Setup) : Upkeep s where
  Holds run := ∀ entry ∈ run.modules, ∀ i, .importItem i ∈ entry.2.items → i.Carried run.store
  Failed _ := True
  Known i run := i.Carried run.store
  failed _ := trivial
  reads hreads h entry he i hi := (h entry (hreads.modules ▸ he) i hi).grows hreads.grows
  fails _ _ := trivial
  known hlater h := h.grows hlater.grows
  imports {run record} imported _ _ hident h := by
    refine (Expand.Yields.forM_mem (I := fun run' => run.Grows run' ∧ run'.modules = run.modules)
      (G := fun wanted run' => imported.Entered run'.store wanted) ⟨.refl run, rfl⟩ fun wanted _ run₁ h₁ => ?_).imp ?_
      fun _ _ h => h
    · refine (Expand.grows_bindImport s record imported wanted run₁).keep_eq.imp ?_ fun _ _ _ => trivial
      rintro _ run₂ ⟨heq, hgrows⟩
      have hloads := (Expand.aside_bindImport s record imported wanted).of_ok heq
      exact ⟨⟨h₁.1.trans hgrows, (congrArg Loads.modules hloads).trans h₁.2⟩, Expand.entered_of_bindImport heq,
        fun other hother => hother.grows hgrows⟩
    · rintro _ run' ⟨⟨hgrows, hmodules⟩, hentered, -⟩
      exact ⟨fun entry he i hi => (h entry (hmodules ▸ he) i hi).grows hgrows, hident, hentered⟩
  keep _ _ _ _ himports h entry he i hi :=
    (Assoc.mem_insert he).elim (fun heq => himports i (heq ▸ hi)) fun he => h entry he i hi

/-- In the end the imports of a program have been carried out, and the names in its export lists are bound. -/
theorem linked_of_expandProgram {s : Setup} {text : String} {expansion : Expansion}
    (h : expandProgram s text = .ok expansion run) (hrecord : Assoc.get? entrySpecifier run.modules = some record) :
    (∀ i, .importItem i ∈ record.items → i.Carried run.store) ∧ ∀ specifiers site,
      .exportList specifiers site ∈ record.items → ∀ e ∈ specifiers, (run.store.resolveIdent e.inner).isSome = true := by
  obtain ⟨record', run₁, hentry, h⟩ := Expand.bind_eq_ok h
  have hget := Expand.get?_of_compile hentry
  have hholds := (((linkUpkeep s).entry nofun text).ok hentry).1.holds
  obtain ⟨file, dialect, items, before, hitems, hkeep⟩ := Expand.compile_eq_ok hentry
  cases h
  obtain rfl : record' = record := Option.some.inj (hget.symm.trans hrecord)
  refine ⟨hholds _ (Assoc.mem_of_get? hget), fun specifiers site hi => ?_⟩
  cases hkeep
  rw [(ModuleRecord.ofItems_ok hitems).2] at hi
  exact ModuleRecord.isSome_of_addItems hitems hi

/-- The names that an import asks for are bound: to a transformer, or to a binding of the kind that the import makes. -/
def Import.Resolved (store : Store) (i : Import) : Prop :=
  ∀ w ∈ i.wanted, ∃ b, store.resolveIdent w.2.1 = some b ∧ (b.kind = .transformer ∨ b.kind = i.kind w.1)

/-- An import that was carried out is resolved if none of its names is bound again. -/
theorem Import.Carried.resolved {store : Store} (h : i.Carried store) (hs : store.Numbered)
    (honce : ∀ t ∈ i.bindings, store.BoundOnce t) : i.Resolved store := by
  intro w hw
  have ht : w.2.1 ∈ i.bindings := Import.mem_bindings.2 ⟨w, hw, rfl⟩
  obtain ⟨b, hb, hname, hscopes, hshown, hkind⟩ := h.entered w hw
  exact ⟨b, (honce _ ht).resolveIdent hs (h.isIdent _ ht) hb hname hscopes (by simp [hshown]), hkind⟩

/-! ### What is left in the output -/

/-- Whether the binding is a runtime binding of another module. -/
def BindingKind.isRuntimeImport : BindingKind → Bool
  | runtimeImport _ _ => true
  | _ => false

theorem BindingKind.eq_of_isTransformer {kind : BindingKind} (h : kind.isTransformer = true) : kind = .transformer := by
  cases kind with
  | transformer => rfl
  | _ => cases h

/-- Whether the identifier refers to a binding of which the test holds. -/
def Store.refersTo (s : Store) (test : BindingKind → Bool) (ident : Token) : Bool :=
  (s.resolveIdent ident).any fun b => test b.kind

/-- What is a runtime binding of another module is no transformer. -/
theorem Store.refersTo_runtimeImport_and (s : Store) (ident : Token) :
    (s.refersTo (·.isRuntimeImport) ident && !s.refersTo (·.isTransformer) ident) =
      s.refersTo (·.isRuntimeImport) ident := by
  unfold Store.refersTo
  cases s.resolveIdent ident with
  | none => rfl
  | some b => cases hk : b.kind <;> simp [hk, BindingKind.isTransformer, BindingKind.isRuntimeImport]

namespace ModuleItem

/-- The identifiers that an item imports. -/
def imported : ModuleItem → List Token
  | .importItem i => i.bindings
  | _ => []

/-- The entries of an export list. -/
def listed : ModuleItem → List ExportSpecifier
  | .exportList specifiers _ => specifiers
  | _ => []

/-- What is left of an item in the output. -/
def left? (store : Store) : ModuleItem → Option ModuleItem
  | .importItem i =>
    let named := i.named.filter fun s => !store.refersTo (·.isTransformer) s.binding
    if i.forSyntax || named.isEmpty && i.defaultBinding.isNone then none else some (.importItem { i with named })
  | .exportList specifiers site =>
    let kept := specifiers.filter fun s => !store.refersTo (·.isTransformer) s.inner
    if kept.isEmpty then none else some (.exportList kept site)
  | item => some item

end ModuleItem

namespace Lowering

/-- The node of an item with everything that it imports or exports. -/
def whole (w : Lowering) : ModuleItem → Node
  | .importItem i => w.node "Import" i.site
    [("defaultBinding", .optional (i.defaultBinding.map w.binding)), ("namedImports", .nodes (i.named.map w.importSpecifier)),
      ("moduleSpecifier", .text i.specifier)]
  | .exportItem (.declaration d) site => w.node "Export" site [("declaration", .node (w.declaration d))]
  | .exportItem (.function fn) site => w.node "Export" site [("declaration", .node (w.functionDeclaration fn))]
  | .exportItem (.defaultValue _ value) site => w.node "ExportDefault" site [("body", .node (w.expression value))]
  | .exportList specifiers site => w.node "ExportLocals" site [("namedExports", .nodes (specifiers.map w.exportSpecifier))]
  | .statement inner => w.statement inner

/-- The node of a module with these items. -/
def moduleOf (w : Lowering) (file : Nat) (items : List ModuleItem) : Node :=
  let length := ((w.sources.text? file).map (·.text.utf8ByteSize)).getD 0
  w.node "Module" ⟨some file, ⟨0, length⟩⟩ [("directives", .nodes []), ("items", .nodes (items.map w.whole))]

theorem item?_eq (w : Lowering) (item : ModuleItem) : w.item? item = (item.left? w.store).map w.whole := by
  have htest : ∀ ident, w.isTransformer ident = w.store.refersTo (·.isTransformer) ident := fun _ => rfl
  match item with
  | .importItem i =>
    simp only [item?, importNode?, ModuleItem.left?, htest, isEmpty_map]
    cases i.forSyntax with
    | true => rfl
    | false =>
      simp only [Bool.false_eq_true, if_false, Bool.false_or]
      split <;> rfl
  | .exportList specifiers site =>
    simp only [item?, ModuleItem.left?, htest, isEmpty_map]
    split <;> rfl
  | .exportItem (.declaration d) site => rfl
  | .exportItem (.function fn) site => rfl
  | .exportItem (.defaultValue _ value) site => rfl
  | .statement inner => rfl

/-- The output of a module is what is left of its items. -/
theorem module_eq (w : Lowering) (record : ModuleRecord) :
    w.module record = w.moduleOf record.file (record.items.filterMap (·.left? w.store)) := by
  have hitems : record.items.filterMap w.item? = (record.items.filterMap (·.left? w.store)).map w.whole := by
    rw [map_filterMap]
    exact congrArg (record.items.filterMap ·) (funext w.item?_eq)
  unfold module moduleOf
  rw [hitems]

end Lowering

theorem Import.kind_of_runtime (i : Import) (h : i.forSyntax = false) (name : String) :
    i.kind name = .runtimeImport i.specifier name := by
  unfold Import.kind
  rw [h]
  rfl

namespace ModuleItem

variable {store : Store} {items : List ModuleItem}

/-- How the imports and exports that are left of a module go together with the bindings in the store. -/
structure Linked (store : Store) (source items : List ModuleItem) : Prop where
  /-- A named import stands for the export of the other module. -/
  named : ∀ i, .importItem i ∈ items → ∀ s ∈ i.named, ∃ b, store.resolveIdent s.binding = some b ∧
    b.kind = .runtimeImport i.specifier s.exportName
  /-- A default binding stands for the default export of the other module, or for a transformer. -/
  default : ∀ i, .importItem i ∈ items → ∀ t ∈ i.defaultBinding, ∃ b, store.resolveIdent t = some b ∧
    (b.kind = .runtimeImport i.specifier "default" ∨ b.kind = .transformer)
  /-- The imported names that stand for runtime bindings are all there, in their order. -/
  imports : (items.flatMap imported).filter (store.refersTo (·.isRuntimeImport)) =
    (source.flatMap imported).filter (store.refersTo (·.isRuntimeImport))
  /-- The exported names that stand for no transformer are there, in their order, and no others. -/
  exports : items.flatMap listed = (source.flatMap listed).filter fun e => !store.refersTo (·.isTransformer) e.inner
  /-- An exported name is bound, and not to a transformer. -/
  bound : ∀ e ∈ items.flatMap listed, ∃ b, store.resolveIdent e.inner = some b ∧ b.kind.isTransformer = false
  /-- The import of an exported name is there, unless it was for compile-time code. -/
  kept : ∀ e ∈ items.flatMap listed, ∀ i, .importItem i ∈ source → ∀ t ∈ i.bindings,
    store.resolveIdent t = store.resolveIdent e.inner → t ∈ items.flatMap imported ∨ i.forSyntax = true

theorem flatMap_left {α : Type} (f : ModuleItem → List α) : (items.filterMap (·.left? store)).flatMap f =
    items.flatMap fun item => (item.left? store).toList.flatMap f := by
  induction items with
  | nil => rfl
  | cons item items ih =>
    rw [flatMap_cons, ← ih, filterMap_cons]
    cases item.left? store <;> simp

/-- What is left of an import has all of its names that stand for runtime bindings. -/
theorem imported_left {i : Import} (hi : i.Resolved store) :
    (((importItem i).left? store).toList.flatMap imported).filter (store.refersTo (·.isRuntimeImport)) =
      i.bindings.filter (store.refersTo (·.isRuntimeImport)) := by
  cases hfor : i.forSyntax with
  | true =>
    have hnone : ∀ t ∈ i.bindings, ¬ store.refersTo (·.isRuntimeImport) t = true := by
      intro t ht
      obtain ⟨w, hw, rfl⟩ := Import.mem_bindings.1 ht
      obtain ⟨b, hb, hk⟩ := hi w hw
      unfold Import.kind at hk
      rw [hfor, if_pos rfl] at hk
      unfold Store.refersTo
      rw [hb]
      rcases hk with hk | hk <;> simp [hk, BindingKind.isRuntimeImport]
    rw [filter_eq_nil_iff.2 hnone]
    simp [left?, hfor]
  | false =>
    have hnamed : ((i.named.filter fun s => !store.refersTo (·.isTransformer) s.binding).map (·.binding)).filter
        (store.refersTo (·.isRuntimeImport)) = (i.named.map (·.binding)).filter (store.refersTo (·.isRuntimeImport)) := by
      rw [filter_map, filter_map, filter_filter]
      congr 2
      exact funext fun s => store.refersTo_runtimeImport_and s.binding
    unfold Import.bindings
    rw [filter_append, ← hnamed, ← filter_append]
    simp only [left?, hfor, Bool.false_or]
    split
    · next hempty =>
      simp only [Bool.and_eq_true, List.isEmpty_iff, Option.isNone_iff_eq_none] at hempty
      simp [hempty.1, hempty.2]
    · simp [imported, Import.bindings]

/-- What is left of an export list has all of its names that stand for no transformer. -/
theorem listed_left (item : ModuleItem) : (item.left? store).toList.flatMap listed =
    (item.listed).filter fun e => !store.refersTo (·.isTransformer) e.inner := by
  cases item with
  | exportList specifiers site =>
    simp only [left?, listed]
    split
    · next hempty => simpa [List.isEmpty_iff] using hempty.symm
    · simp [listed]
  | importItem i =>
    simp only [left?, listed]
    split <;> simp [listed]
  | _ => rfl

/-- What is left of an import. -/
theorem exists_of_mem_left {j : Import} (hj : .importItem j ∈ items.filterMap (·.left? store)) : ∃ i,
    .importItem i ∈ items ∧ i.forSyntax = false ∧
      j = { i with named := i.named.filter fun s => !store.refersTo (·.isTransformer) s.binding } := by
  obtain ⟨item, hitem, hleft⟩ := mem_filterMap.1 hj
  cases item with
  | importItem i =>
    simp only [left?] at hleft
    split at hleft
    · cases hleft
    · next hnot =>
      cases hleft
      exact ⟨i, hitem, by simp_all, rfl⟩
  | exportList specifiers site =>
    simp only [left?] at hleft
    split at hleft <;> cases hleft
  | exportItem exported site => cases hleft
  | statement inner => cases hleft

/-- What is left of the items of a module is linked if its imports are resolved and what it exports is bound. -/
theorem linked_left (hres : ∀ i, .importItem i ∈ items → i.Resolved store)
    (hbound : ∀ e ∈ items.flatMap listed, (store.resolveIdent e.inner).isSome = true) :
    Linked store items (items.filterMap (·.left? store)) := by
  have himports : ((items.filterMap (·.left? store)).flatMap imported).filter (store.refersTo (·.isRuntimeImport)) =
      (items.flatMap imported).filter (store.refersTo (·.isRuntimeImport)) := by
    rw [flatMap_left, filter_flatMap, filter_flatMap]
    refine flatMap_congr fun item hitem => ?_
    cases item with
    | importItem i => exact imported_left (hres i hitem)
    | exportList specifiers site =>
      simp only [left?]
      split <;> rfl
    | _ => rfl
  have hexports : (items.filterMap (·.left? store)).flatMap listed =
      (items.flatMap listed).filter fun e => !store.refersTo (·.isTransformer) e.inner := by
    rw [flatMap_left, filter_flatMap]
    exact flatMap_congr fun item _ => listed_left item
  have hlisted : ∀ e ∈ (items.filterMap (·.left? store)).flatMap listed, ∃ b,
      store.resolveIdent e.inner = some b ∧ b.kind.isTransformer = false := by
    intro e he
    rw [hexports] at he
    obtain ⟨he, hkind⟩ := mem_filter.1 he
    obtain ⟨b, hb⟩ := Option.isSome_iff_exists.1 (hbound e he)
    unfold Store.refersTo at hkind
    rw [hb] at hkind
    exact ⟨b, hb, by simpa using hkind⟩
  refine ⟨fun j hj s hs => ?_, fun j hj t ht => ?_, himports, hexports, hlisted, fun e he i hi t ht heq => ?_⟩
  · obtain ⟨i, hi, hfor, rfl⟩ := exists_of_mem_left hj
    obtain ⟨hs, hkind⟩ := mem_filter.1 hs
    have hw : (s.exportName, s.binding, s.site) ∈ i.wanted := mem_append_right _ (mem_map_of_mem hs)
    obtain ⟨b, hb, hk⟩ := hres i hi _ hw
    refine ⟨b, hb, (hk.resolve_left fun htransformer => ?_).trans (i.kind_of_runtime hfor _)⟩
    simp [Store.refersTo, hb, htransformer, BindingKind.isTransformer] at hkind
  · obtain ⟨i, hi, hfor, rfl⟩ := exists_of_mem_left hj
    have hw : ("default", t, t.site) ∈ i.wanted :=
      mem_append_left _ (mem_map_of_mem (f := fun t => ("default", t, t.site)) (Option.mem_toList.2 ht))
    obtain ⟨b, hb, hk⟩ := hres i hi _ hw
    exact ⟨b, hb, hk.symm.imp_left fun h => h.trans (i.kind_of_runtime hfor _)⟩
  · obtain ⟨b, hb, hkind⟩ := hlisted e he
    rw [hb] at heq
    obtain ⟨w, hw, rfl⟩ := Import.mem_bindings.1 ht
    obtain ⟨c, hc, hk⟩ := hres i hi w hw
    obtain rfl : b = c := Option.some.inj (heq.symm.trans hc)
    rcases hk with hk | hk
    · rw [hk] at hkind
      cases hkind
    · cases hfor : i.forSyntax with
      | true => exact Or.inr rfl
      | false =>
        rw [i.kind_of_runtime hfor] at hk
        have hmem : w.2.1 ∈ (items.flatMap imported).filter (store.refersTo (·.isRuntimeImport)) :=
          mem_filter.2 ⟨mem_flatMap.2 ⟨_, hi, ht⟩, by simp [Store.refersTo, hc, hk, BindingKind.isRuntimeImport]⟩
        rw [← himports] at hmem
        exact Or.inl (mem_filter.1 hmem).1

end ModuleItem

/-- In the output of a program, imports and exports go together with the bindings, if no imported name is bound again. -/
theorem expandProgram_linked {s : Setup} {text : String} {expansion : Expansion} {run : Run}
    (h : expandProgram s text = .ok expansion run) : ∃ record, Assoc.get? entrySpecifier run.modules = some record ∧
      ((∀ t ∈ record.items.flatMap ModuleItem.imported, run.store.BoundOnce t) → ∃ items,
        expansion.tree = Lowering.moduleOf ⟨run.store, run.sources, s.config⟩ record.file items ∧
          ModuleItem.Linked run.store record.items items) := by
  obtain ⟨record, hget, htree⟩ := record_of_expandProgram h
  obtain ⟨hentered, hbound⟩ := linked_of_expandProgram h hget
  refine ⟨record, hget, fun honce => ⟨_, htree.trans (Lowering.module_eq _ record), ?_⟩⟩
  refine ModuleItem.linked_left (fun i hi => ?_) fun e he => ?_
  · refine (hentered i hi).resolved (Run.Final.of_ok h).sound.numbered fun t ht => honce t ?_
    exact mem_flatMap.2 ⟨_, hi, ht⟩
  · obtain ⟨item, hitem, he⟩ := mem_flatMap.1 he
    cases item with
    | exportList specifiers site => exact hbound specifiers site hitem e he
    | _ => cases he

/-! ### Imports and exports in given programs -/

/-- The entry program of a run, if none of the names that it imports is bound again. -/
def Run.entryOnce? (run : Run) : Option ModuleRecord :=
  (Assoc.get? entrySpecifier run.modules).filter fun record =>
    (record.items.flatMap ModuleItem.imported).all fun t => run.store.BoundOnce t

theorem Run.boundOnce_of_entryOnce? (h : run.entryOnce? = some record) :
    Assoc.get? entrySpecifier run.modules = some record ∧
      ∀ t ∈ record.items.flatMap ModuleItem.imported, run.store.BoundOnce t := by
  obtain ⟨hget, honce⟩ := Option.filter_eq_some_iff.1 h
  exact ⟨hget, fun t ht => of_decide_eq_true (all_eq_true.1 honce t ht)⟩

/-- A module with a default export, a variable and a transformer. -/
def Setup.mixed : Setup where
  load := tableLoader [("./m.js", "#lang 'sweet.js'; export default 1; export var x = 2; export syntax m = ctx => #`3`;")]

/-- An import of all of them, one for compile-time code, and an export of what was imported. -/
def mixedText : String :=
  "import d, \x7b x as y, m \x7d from './m.js'; import \x7b x \x7d from './m.js' for syntax; export \x7b y, d, m \x7d;"

/-- The transformer and the import for compile-time code are left out. -/
theorem expandProgram_linked_mixed : ∃ expansion run, expandProgram .mixed mixedText = .ok expansion run ∧
    ∃ record, Assoc.get? entrySpecifier run.modules = some record ∧
      (∀ t ∈ record.items.flatMap ModuleItem.imported, run.store.BoundOnce t) ∧ ∃ items,
        expansion.tree = Lowering.moduleOf ⟨run.store, run.sources, Setup.mixed.config⟩ record.file items ∧
          ModuleItem.Linked run.store record.items items := by
  obtain ⟨expansion, run, hres, hok⟩ := exists_of_succeeds (expandProgram .mixed mixedText)
    (fun _ run => run.entryOnce?.isSome) (by decide +kernel)
  obtain ⟨record', honce'⟩ := Option.isSome_iff_exists.1 hok
  obtain ⟨hget', honce⟩ := Run.boundOnce_of_entryOnce? honce'
  obtain ⟨record, hget, hlinked⟩ := expandProgram_linked hres
  obtain rfl : record' = record := Option.some.inj (hget'.symm.trans hget)
  exact ⟨expansion, run, hres, record', hget, honce, hlinked honce⟩

/-- A module whose default export is a transformer, and a module with a variable. -/
def Setup.crossed : Setup where
  load := tableLoader [("./m.js", "#lang 'sweet.js'; syntax m = ctx => #`1`; export \x7b m as default \x7d;"),
    ("./x.js", "export var x = 1;")]

/-- The variable is imported for compile-time code and exported. -/
def crossedText : String := "import m from './m.js'; import \x7b x \x7d from './x.js' for syntax; export \x7b x \x7d;"

/-- Whether a default binding in the output refers to a transformer, and an exported name to a binding that was imported
for compile-time code, of which the import is left out. -/
def Run.isCrossed (run : Run) (record : ModuleRecord) : Bool :=
  let items := record.items.filterMap (·.left? run.store)
  (items.any fun
    | .importItem i => i.defaultBinding.any (run.store.refersTo (·.isTransformer))
    | _ => false) &&
  (items.flatMap ModuleItem.listed).any fun e => (run.store.resolveIdent e.inner).any fun b =>
    b.kind = .compileTimeImport "./x.js" "x" &&
      (items.flatMap ModuleItem.imported).all fun t => (run.store.resolveIdent t).all fun c => c.id ≠ b.id

/-- The output imports a transformer as a default binding, and exports a name whose import was left out. -/
theorem expandProgram_crossed : ∃ expansion run, expandProgram .crossed crossedText = .ok expansion run ∧
    ∃ record, Assoc.get? entrySpecifier run.modules = some record ∧
      (∀ t ∈ record.items.flatMap ModuleItem.imported, run.store.BoundOnce t) ∧ ∃ items,
        expansion.tree = Lowering.moduleOf ⟨run.store, run.sources, Setup.crossed.config⟩ record.file items ∧
          (∃ i, .importItem i ∈ items ∧ ∃ t ∈ i.defaultBinding, ∃ b, run.store.resolveIdent t = some b ∧
            b.kind = .transformer) ∧
          ∃ e ∈ items.flatMap ModuleItem.listed, ∃ b, run.store.resolveIdent e.inner = some b ∧
            b.kind = .compileTimeImport "./x.js" "x" ∧
            ∀ t ∈ items.flatMap ModuleItem.imported, run.store.resolveIdent t ≠ some b := by
  obtain ⟨expansion, run, hres, hcrossed⟩ := exists_of_succeeds (expandProgram .crossed crossedText)
    (fun _ run => run.entryOnce?.any run.isCrossed) (by decide +kernel)
  obtain ⟨record', honce', hcrossed⟩ := (Option.any_eq_true ..).1 hcrossed
  obtain ⟨hget', honce⟩ := Run.boundOnce_of_entryOnce? honce'
  obtain ⟨record, hget, htree⟩ := record_of_expandProgram hres
  obtain rfl : record' = record := Option.some.inj (hget'.symm.trans hget)
  obtain ⟨hdefault, hexport⟩ := Bool.and_eq_true_iff.1 hcrossed
  refine ⟨expansion, run, hres, record', hget, honce, _, htree.trans (Lowering.module_eq _ record'), ?_, ?_⟩
  · obtain ⟨item, hitem, htest⟩ := any_eq_true.1 hdefault
    cases item with
    | importItem i =>
      obtain ⟨t, ht, htest⟩ := (Option.any_eq_true ..).1 htest
      obtain ⟨b, hb, hk⟩ := (Option.any_eq_true ..).1 htest
      exact ⟨i, hitem, t, ht, b, hb, BindingKind.eq_of_isTransformer hk⟩
    | _ => cases htest
  · obtain ⟨e, he, htest⟩ := any_eq_true.1 hexport
    obtain ⟨b, hb, htest⟩ := (Option.any_eq_true ..).1 htest
    obtain ⟨hk, hall⟩ := Bool.and_eq_true_iff.1 htest
    refine ⟨e, he, b, hb, of_decide_eq_true hk, fun t ht hres => ?_⟩
    have := all_eq_true.1 hall t ht
    simp [hres] at this

end Hygiene
