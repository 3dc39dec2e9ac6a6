import Hygiene.Proofs.Loading.Reexport
import Mathlib.Data.List.Induction

/-!
# What a name is exported for

Of several exports of one kind under one name the last one counts, but an export of a transformer always hides one of
the other kind, also where that comes later.
-/

namespace Hygiene

namespace ModuleRecord

/-- The exports of one kind: those that stand for transformers, or the others. -/
def exportsOf (transformers : Bool) (r : ModuleRecord) : List (String × BindingId) :=
  if transformers then r.transformerExports else r.runtimeExports

/-- The bindings that the items of a module export, under their names and in order. -/
def exportedBindings (store : Store) (r : ModuleRecord) : List (String × Binding) :=
  (r.items.flatMap ModuleItem.exports).filterMap store.exported?

/-- The last binding among exports that a condition holds for. -/
def lastExport? (p : String → Binding → Bool) (entries : List (String × Binding)) : Option Binding :=
  (entries.filter fun e => p e.1 e.2).getLast?.map (·.2)

/-- The last binding of a kind that the items of a module export under a name. -/
def exportOf? (store : Store) (r : ModuleRecord) (transformer : Bool) (name : String) : Option Binding :=
  lastExport? (fun n b => n == name && b.kind.isTransformer == transformer) (r.exportedBindings store)

/-- The last binding that the items of a module export under a name. -/
def lastExportOf? (store : Store) (r : ModuleRecord) (name : String) : Option Binding :=
  lastExport? (fun n _ => n == name) (r.exportedBindings store)

theorem lastExport?_append (p : String → Binding → Bool) (entries : List (String × Binding)) (name : String) (b : Binding) :
    lastExport? p (entries ++ [(name, b)]) = if p name b then some b else lastExport? p entries := by
  rw [lastExport?, List.filter_append]
  cases h : p name b <;> simp [lastExport?, h]

theorem get?_addExport (r : ModuleRecord) (transformers : Bool) (name key : String) (b : Binding) :
    Assoc.get? name ((r.addExport key b).exportsOf transformers) =
      if key == name && b.kind.isTransformer == transformers then some b.id
      else Assoc.get? name (r.exportsOf transformers) := by
  unfold addExport exportsOf
  cases hk : b.kind.isTransformer <;> cases transformers <;> simp [Assoc.get?_insert]

/-- In each of the two tables the last export under a name counts. -/
theorem get?_addExports {r : ModuleRecord} {transformers : Bool} {name : String}
    (h : Assoc.get? name (r.exportsOf transformers) = none) (entries : List (String × Binding)) :
    Assoc.get? name ((r.addExports entries).exportsOf transformers) =
      (lastExport? (fun n b => n == name && b.kind.isTransformer == transformers) entries).map (·.id) := by
  induction entries using List.reverseRecOn with
  | nil => exact h
  | append_singleton entries entry ih =>
    rw [addExports_append, lastExport?_append]
    refine (get?_addExport _ _ _ _ _).trans ?_
    rw [ih]
    split <;> rfl

variable {store : Store} {r : ModuleRecord} {specifier : String} {file : Nat} {dialect : Dialect} {items : List ModuleItem}

theorem get?_exportsOf (h : ofItems store specifier file dialect items = .ok r) (transformers : Bool) (name : String) :
    Assoc.get? name (r.exportsOf transformers) = (r.exportOf? store transformers name).map (·.id) := by
  have hr := addItems_eq h
  rw [exportOf?, exportedBindings, (ofItems_ok h).2]
  rw [hr]
  exact get?_addExports (by cases transformers <;> rfl) _

/-- The last export under a name is the last one of its kind. -/
theorem lastExport?_kind {name : String} {entries : List (String × Binding)} {b : Binding}
    (h : lastExport? (fun n _ => n == name) entries = some b) :
    lastExport? (fun n c => n == name && c.kind.isTransformer == b.kind.isTransformer) entries = some b := by
  induction entries using List.reverseRecOn with
  | nil => cases h
  | append_singleton entries entry ih =>
    rw [lastExport?_append] at h ⊢
    split at h
    · next hname =>
      cases h
      rw [hname, beq_self_eq_true, Bool.and_self, if_pos rfl]
    · next hname =>
      rw [Bool.of_not_eq_true hname, Bool.false_and, if_neg Bool.false_ne_true]
      exact ih h

theorem export?_eq (h : ofItems store specifier file dialect items = .ok r) (name : String) :
    r.export? name = match r.exportOf? store true name with
      | some b => some (b.id, true)
      | none => (r.exportOf? store false name).map fun b => (b.id, false) := by
  have htransformer : Assoc.get? name r.transformerExports = _ := get?_exportsOf h true name
  have hruntime : Assoc.get? name r.runtimeExports = _ := get?_exportsOf h false name
  rw [export?, htransformer, hruntime]
  cases r.exportOf? store true name with
  | some b => rfl
  | none => exact Option.map_map ..

end ModuleRecord

/-- In every run: a record keeps, of the exports of its items, the last one of each kind under each name. What the name
is exported for is the transformer, if there is one. So it is the last export under the name, unless that is hidden by a
transformer. -/
theorem Run.Final.exports_last {s : Setup} {run : Run} (hrun : run.Final s) : ∀ entry ∈ run.modules,
    ∃ snapshot ∈ run.snapshots, snapshot.specifier = entry.1 ∧ ∀ name,
      (∀ transformers, Assoc.get? name (entry.2.exportsOf transformers) =
        (entry.2.exportOf? snapshot.store transformers name).map (·.id)) ∧
      (entry.2.export? name = match entry.2.exportOf? snapshot.store true name with
        | some b => some (b.id, true)
        | none => (entry.2.exportOf? snapshot.store false name).map fun b => (b.id, false)) ∧
      ∀ b, entry.2.lastExportOf? snapshot.store name = some b →
        (entry.2.export? name = some (b.id, b.kind.isTransformer) ↔
          b.kind.isTransformer = true ∨ entry.2.exportOf? snapshot.store true name = none) := by
  intro entry hentry
  obtain ⟨past, -, hfinishes, hsnapshot⟩ := hrun.compiled.finished entry hentry
  obtain ⟨file, dialect, hitems⟩ := hfinishes.items
  have hexport := ModuleRecord.export?_eq hitems
  refine ⟨_, hsnapshot, rfl, fun name => ⟨fun k => ModuleRecord.get?_exportsOf hitems k name, hexport name, ?_⟩⟩
  intro b hb
  have hkind : entry.2.exportOf? past.store b.kind.isTransformer name = some b := ModuleRecord.lastExport?_kind hb
  rw [hexport]
  cases htransformer : b.kind.isTransformer with
  | true =>
    rw [htransformer] at hkind
    simp [hkind]
  | false =>
    rw [htransformer] at hkind
    cases entry.2.exportOf? past.store true name <;> simp [hkind]

/-- A module that exports a transformer and then a variable under one name. -/
def Setup.doubled : Setup where
  load := tableLoader [("./a.js", "#lang 'sweet.js'; syntax m = ctx => #`2`; export \x7b m as x \x7d; export var x = 1;")]

/-- An import of the name that has two exports. -/
def doubledText : String := "import \x7b x \x7d from './a.js'; output = x;"

/-- Whether a record exports the name for a transformer, although the last export under it is of a variable. -/
def ModuleRecord.isDoubled (r : ModuleRecord) (store : Store) : Bool :=
  (Assoc.get? "x" r.transformerExports).isSome && (Assoc.get? "x" r.runtimeExports).isSome &&
    (r.lastExportOf? store "x").any (!·.kind.isTransformer) && (r.export? "x").any (·.2)

/-- The name that has two exports is exported for the transformer. -/
theorem Run.Final.exports_last_doubled : ∃ expansion run, expandProgram .doubled doubledText = .ok expansion run ∧
    ∃ entry ∈ run.modules, ∃ snapshot ∈ run.snapshots, snapshot.specifier = entry.1 ∧
      ∃ b, entry.2.exportOf? snapshot.store true "x" = some b ∧ entry.2.export? "x" = some (b.id, true) := by
  obtain ⟨expansion, run, hres, hok⟩ := exists_of_succeeds (expandProgram .doubled doubledText)
    (fun _ run => run.modules.any fun entry => (entry.2.export? "x").any (·.2)) (by decide +kernel)
  obtain ⟨entry, hentry, hflag⟩ := List.any_eq_true.1 hok
  obtain ⟨snapshot, hsnapshot, hspecifier, hexports⟩ := Run.Final.exports_last (.of_ok hres) entry hentry
  obtain ⟨-, hexport, -⟩ := hexports "x"
  refine ⟨expansion, run, hres, entry, hentry, snapshot, hsnapshot, hspecifier, ?_⟩
  cases hb : entry.2.exportOf? snapshot.store true "x" with
  | some b =>
    rw [hb] at hexport
    exact ⟨b, rfl, hexport⟩
  | none =>
    rw [hexport, hb] at hflag
    cases hruntime : entry.2.exportOf? snapshot.store false "x" <;> simp [hruntime] at hflag

/-- A name can be exported both for a transformer and for a variable, and then it does not stand for the last of them. -/
theorem ModuleRecord.exports_overlap : ∃ expansion run, expandProgram .doubled doubledText = .ok expansion run ∧
    ∃ entry ∈ run.modules, ∃ snapshot ∈ run.snapshots, snapshot.specifier = entry.1 ∧
      entry.2.isDoubled snapshot.store = true := by
  obtain ⟨expansion, run, hres, hok⟩ := exists_of_succeeds (expandProgram .doubled doubledText)
    (fun _ run => decide (∃ entry ∈ run.modules, ∃ snapshot ∈ run.snapshots, snapshot.specifier = entry.1 ∧
      entry.2.isDoubled snapshot.store = true)) (by decide +kernel)
  exact ⟨expansion, run, hres, of_decide_eq_true hok⟩

end Hygiene
