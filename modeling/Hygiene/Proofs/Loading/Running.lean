import Hygiene.Proofs.Loading.Once

/-!
# The modules that a program runs

Imports for compile-time code do not count. Imports of transformers only do, although they are left out of the output.
-/

namespace Hygiene

open List

variable {order modules : List (String × ModuleRecord)} {opened : List (String × Phase)} {run : Run}

/-- The module has run at runtime. -/
def Run.Instantiated (run : Run) (m : String) : Prop := (Assoc.get? (m, Phase.runtime) run.instances).isSome = true

namespace Lowering

/-- One module imports another in the output. -/
def Imports (w : Lowering) (modules : List (String × ModuleRecord)) (importer imported : String) : Prop :=
  ∃ record, (importer, record) ∈ modules ∧
    ∃ i, .importItem i ∈ record.items ∧ (w.importNode? i).isSome = true ∧ i.specifier = imported

/-- One module imports another for runtime, but transformers only. -/
def ImportsTransformers (w : Lowering) (modules : List (String × ModuleRecord)) (importer imported : String) : Prop :=
  ∃ record, (importer, record) ∈ modules ∧ ∃ i, .importItem i ∈ record.items ∧ i.forSyntax = false ∧
    i.defaultBinding = none ∧ (∀ name ∈ i.named, w.isTransformer name.binding = true) ∧ i.specifier = imported

/-- An import is in the output exactly if it is for runtime and binds more than transformers. -/
theorem isSome_importNode? {w : Lowering} {i : Import} : (w.importNode? i).isSome = true ↔
    i.forSyntax = false ∧ ¬ (i.defaultBinding = none ∧ ∀ name ∈ i.named, w.isTransformer name.binding = true) := by
  unfold importNode?
  cases i.forSyntax with
  | true => simp
  | false =>
    simp only [Bool.false_eq_true, if_false, true_and]
    split
    · next h =>
      simp only [Bool.and_eq_true, isEmpty_map, List.isEmpty_iff, filter_eq_nil_iff,
        Option.isNone_iff_eq_none] at h
      simp [h.2]
      simpa using h.1
    · next h =>
      simp only [Bool.and_eq_true, isEmpty_map, List.isEmpty_iff, filter_eq_nil_iff,
        Option.isNone_iff_eq_none] at h
      simpa [and_comm] using h

/-- The imports for runtime are those in the output and those of transformers only. -/
theorem runtimeImports_iff (w : Lowering) {importer imported : String} :
    RuntimeImports modules importer imported ↔
      w.Imports modules importer imported ∨ w.ImportsTransformers modules importer imported := by
  constructor
  · rintro ⟨record, hmem, himported⟩
    obtain ⟨i, hi, hruntime, heq⟩ := ModuleRecord.mem_runtimeImports.1 himported
    by_cases honly : i.defaultBinding = none ∧ ∀ name ∈ i.named, w.isTransformer name.binding = true
    · exact Or.inr ⟨record, hmem, i, hi, hruntime, honly.1, honly.2, heq⟩
    · exact Or.inl ⟨record, hmem, i, hi, isSome_importNode?.2 ⟨hruntime, honly⟩, heq⟩
  · rintro (⟨record, hmem, i, hi, hnode, heq⟩ | ⟨record, hmem, i, hi, hruntime, -, -, heq⟩)
    · exact ⟨record, hmem, ModuleRecord.mem_runtimeImports.2 ⟨i, hi, (isSome_importNode?.1 hnode).1, heq⟩⟩
    · exact ⟨record, hmem, ModuleRecord.mem_runtimeImports.2 ⟨i, hi, hruntime, heq⟩⟩

end Lowering

/-- What is run in an order of modules, once they are expanded, until a result. `imports` tells for which imports a
module is run. -/
structure RunsModules (imports : String → String → Prop) (main : String) (expanded : Run)
    (order : List (String × ModuleRecord)) (result : EStateM.Result ExpandError Run Environment) : Prop where
  /-- The statements of the modules are run in the order. -/
  events : (finalRun result).events = (order.map (·.2.running)).reverse ++ expanded.events
  known : order ⊆ expanded.modules
  once : (Assoc.keys order).Nodup
  /-- Every module that is run is reached from the main one, and run behind those that it imports. -/
  reached : ∀ m ∈ Assoc.keys order, Relation.ReflTransGen imports main m
  importsFirst : ∀ before m record after, order = before ++ (m, record) :: after →
    ∀ i, imports m i → i ∈ Assoc.keys before
  /-- After a success all modules that are reached have run, and the main one last. -/
  complete : ∀ env run, result = .ok env run → (Assoc.keys order).getLast? = some main ∧
    ∀ m, Relation.ReflTransGen imports main m → m ∈ Assoc.keys order
  /-- Nothing fails but the code that is run. -/
  fails : ∀ e run, result = .error e run → order ≠ [] ∧ e.fault.isOfCode = true

/-- The module and its record, as modules are kept. -/
def ModuleRecord.entry (record : ModuleRecord) : String × ModuleRecord := (record.specifier, record)

/-- Before a module starts, those that it imports have started. -/
theorem Run.Orderly.importsFirst_starts (h : run.Orderly opened)
    {later earlier : List (ModuleRecord × Phase)} {record : ModuleRecord} {phase : Phase}
    (hstarts : run.starts = later ++ (record, phase) :: earlier) {i : String} (hi : i ∈ record.runtimeImports) :
    ∃ r, r.specifier = i ∧ (r, phase) ∈ earlier := by
  obtain ⟨after, rest, hsplit, -, hrest⟩ := filterMap_eq_append_iff.1 hstarts
  obtain ⟨skipped, activity, before, rfl, -, hactivity, hbefore⟩ := filterMap_eq_cons_iff.1 hrest
  obtain rfl := Activity.eq_of_started? hactivity
  obtain ⟨r, hr, hstarted⟩ :=
    (h.importsFirst (after ++ skipped) record phase before (by rw [hsplit, append_assoc]) i hi).started
  exact ⟨r, hr, hbefore ▸ mem_filterMap.2 ⟨_, hstarted, rfl⟩⟩

/-- Modules that start newly at runtime start behind those that they import. -/
theorem Run.Orderly.importsFirst_entries (h : run.Orderly opened)
    (hnodup : (Assoc.keys modules).Nodup) {new : List ModuleRecord}
    (hknown : ∀ r ∈ new, r.entry ∈ modules) {old : List (ModuleRecord × Phase)}
    (hold : ∀ r, (r, Phase.runtime) ∉ old) (hstarts : run.starts = new.map (·, Phase.runtime) ++ old)
    (before m r after) (hsplit : new.reverse.map ModuleRecord.entry = before ++ (m, r) :: after) (i : String)
    (hi : RuntimeImports modules m i) : i ∈ Assoc.keys before := by
  obtain ⟨r', hr', hi⟩ := hi
  have hentry : ∀ e ∈ before ++ (m, r) :: after, ∃ r ∈ new, r.entry = e := fun e he => by
    rw [← hsplit] at he
    simpa using he
  obtain ⟨r₁, hr₁, heq⟩ := hentry (m, r) (by simp)
  have hr : (m, r) ∈ modules := heq ▸ hknown r₁ hr₁
  obtain rfl : r = r' := congrArg Prod.snd (inj_on_of_nodup_map hnodup hr hr' rfl)
  have hnew : new = (after.map (·.2)).reverse ++ r :: (before.map (·.2)).reverse := by
    have hrecords := congrArg (fun l => (l.map Prod.snd).reverse) hsplit
    simpa [ModuleRecord.entry, Function.comp_def] using hrecords
  rw [hnew, map_append, map_cons, append_assoc, cons_append] at hstarts
  obtain ⟨r₂, hspecifier, hr₂⟩ := h.importsFirst_starts hstarts hi
  obtain ⟨e, he, rfl⟩ : ∃ e ∈ before, e.2 = r₂ := by simpa [hold] using hr₂
  obtain ⟨r₃, -, rfl⟩ := hentry e (mem_append_left _ he)
  exact mem_map.2 ⟨_, he, hspecifier⟩

/-- An order in which modules stand behind their imports holds all that is reached from one of them. -/
theorem mem_keys_of_reached {imports : String → String → Prop}
    (hfirst : ∀ before m r after, order = before ++ (m, r) :: after → ∀ i, imports m i → i ∈ Assoc.keys before)
    {main m : String} (hmain : main ∈ Assoc.keys order) (hm : Relation.ReflTransGen imports main m) :
    m ∈ Assoc.keys order := by
  induction hm with
  | refl => exact hmain
  | tail _ hstep ih =>
    obtain ⟨⟨b, r⟩, hb, rfl⟩ := mem_map.1 ih
    obtain ⟨first, after, rfl⟩ := append_of_mem hb
    have himported := hfirst first b r after rfl _ hstep
    rw [Assoc.keys, map_append]
    exact mem_append_left _ himported

namespace Expand

variable {s : Setup} {text : String} {record : ModuleRecord} {expanded : Run}

/-- A program that has been expanded runs the modules that it reaches. -/
theorem runsModules_of_entry (h : entry s text {} = .ok record expanded) :
    (∀ m, ¬ expanded.Instantiated m) ∧ ∃ order, RunsModules (RuntimeImports expanded.modules) entrySpecifier expanded
      order (Hygiene.evaluateProgram s text) := by
  obtain ⟨⟨hordered, -, -, -, hstaged⟩, -⟩ := ((runningUpkeep s).entry Run.staged_empty text).ok h
  have hmem : (entrySpecifier, record) ∈ expanded.modules := compile_keeps h
  have hnodup : (Assoc.keys expanded.modules).Nodup := hordered.modules_nodup
  have hplays := plays_program (s := s) hordered hstaged hmem
  rw [evaluateProgram_of_entry h]
  obtain ⟨opened, hgoes⟩ := yields_final.1 (hplays.imp (fun _ _ h => ⟨_, h.1⟩) fun _ _ hb => hb.goes)
  obtain ⟨new, hstarts, hevents, hreached⟩ := hgoes.order
  have hold : ∀ r, (r, Phase.runtime) ∉ expanded.starts := by
    intro r hr
    rcases (hstaged.orderly.started r .runtime (Run.mem_starts.1 hr)).2 with hopened | ⟨values, hget⟩
    · cases hopened
    · rw [hstaged.get?_runtime] at hget
      cases hget
  have hknown : ∀ r ∈ new, r.entry ∈ expanded.modules := fun r hr => by
    have hstarted : (r, Phase.runtime) ∈ new.map (·, Phase.runtime) := mem_map.2 ⟨r, hr, rfl⟩
    exact hgoes.modules ▸ (hgoes.orderly.started r _ (Run.mem_starts.1 (hstarts ▸ mem_append_left _ hstarted))).1
  have hbefore := hgoes.orderly.importsFirst_entries hnodup hknown hold hstarts
  have hsub : new.reverse.map ModuleRecord.entry ⊆ expanded.modules := by
    intro e he
    obtain ⟨r, hr, rfl⟩ := mem_map.1 he
    exact hknown r (mem_reverse.1 hr)
  refine ⟨fun m hm => ?_, new.reverse.map ModuleRecord.entry, ?_, hsub, ?_, ?_, hbefore, fun env run hok => ?_,
    fun e run herror => ?_⟩
  · rw [Run.Instantiated, hstaged.get?_runtime] at hm
    cases hm
  · rw [hevents]
    simp [ModuleRecord.entry, Function.comp_def]
  · have hdistinct : new.Nodup := (nodup_append.1 (hstarts ▸ hgoes.orderly.startedOnce)).1.of_map
    have hentries := (nodup_reverse.2 hdistinct).map (f := ModuleRecord.entry) fun _ _ heq => congrArg Prod.snd heq
    exact hentries.map_on fun e he e' he' heq => inj_on_of_nodup_map hnodup (hsub he) (hsub he') heq
  · simpa [Assoc.keys, ModuleRecord.entry] using hreached
  · have hhead := (hplays.ok hok).2
    rw [hok] at hstarts
    rw [show run.starts = _ from hstarts] at hhead
    cases new with
    | nil => exact (hold record (mem_of_mem_head? hhead)).elim
    | cons last rest =>
      cases hhead
      have hkeys : Assoc.keys ((record :: rest).reverse.map ModuleRecord.entry) =
          Assoc.keys (rest.reverse.map ModuleRecord.entry) ++ [entrySpecifier] := by
        simp [Assoc.keys, ModuleRecord.entry, show entrySpecifier = record.specifier from hstaged.named _ hmem]
      exact ⟨hkeys ▸ List.getLast?_concat, fun m hm => mem_keys_of_reached hbefore
        (hkeys ▸ mem_append_right _ (mem_singleton_self _)) hm⟩
  · have hb := hplays.error herror
    rw [herror] at hstarts
    refine ⟨?_, hb.ofCode⟩
    rintro hnil
    have hlength := hb.started
    rw [show run.starts = _ from hstarts] at hlength
    simp [reverse_eq_nil_iff.1 (map_eq_nil_iff.1 hnil)] at hlength

end Expand

/-- The modules that a program runs at runtime: those that it reaches through imports that are in the output or that
bind transformers only, and itself, each once and behind those that it imports. Nothing has run at runtime before. -/
theorem evaluateProgram_runs {s : Setup} {text : String} {record : ModuleRecord} {expanded : Run}
    (h : Expand.entry s text {} = .ok record expanded) :
    let w : Lowering := ⟨expanded.store, expanded.sources, s.config⟩
    (∀ m, ¬ expanded.Instantiated m) ∧ ∃ order, RunsModules
      (fun importer imported => w.Imports expanded.modules importer imported ∨
        w.ImportsTransformers expanded.modules importer imported)
      entrySpecifier expanded order (evaluateProgram s text) := by
  intro w
  have himports : RuntimeImports expanded.modules = fun importer imported =>
      w.Imports expanded.modules importer imported ∨ w.ImportsTransformers expanded.modules importer imported := by
    funext importer imported
    exact propext w.runtimeImports_iff
  rw [← himports]
  exact Expand.runsModules_of_entry h

/-- Two modules with a variable, and one with a transformer. -/
def Setup.staged : Setup where
  load := tableLoader [("./a.js", "export var a = 1;"), ("./b.js", "export var b = 2;"),
    ("./m.js", "#lang 'sweet.js'; export syntax m = ctx => #`3`;")]

/-- Imports for runtime, of a transformer only, and for compile-time code. -/
def stagedText : String :=
  "import \x7b a \x7d from './a.js'; import \x7b m \x7d from './m.js'; import \x7b b \x7d from './b.js' for syntax; a;"

/-- The program is expanded, so its modules run in an order. -/
theorem evaluateProgram_runs_staged : ∃ record expanded, Expand.entry .staged stagedText {} = .ok record expanded ∧
    (∀ m, ¬ expanded.Instantiated m) ∧ ∃ order, RunsModules
      (fun importer imported =>
        Lowering.Imports ⟨expanded.store, expanded.sources, Setup.staged.config⟩ expanded.modules importer imported ∨
        Lowering.ImportsTransformers ⟨expanded.store, expanded.sources, Setup.staged.config⟩ expanded.modules importer
          imported)
      entrySpecifier expanded order (evaluateProgram .staged stagedText) := by
  obtain ⟨record, expanded, hres, -⟩ := exists_of_succeeds (Expand.entry .staged stagedText {}) (fun _ _ => true)
    (by decide +kernel)
  exact ⟨record, expanded, hres, evaluateProgram_runs hres⟩

/-- A module with a transformer that fails when it is run. -/
def Setup.failing : Setup where
  load := tableLoader [("./m.js", "#lang 'sweet.js'; export syntax m = ctx => #`1`; throw 'x';")]

/-- An import of the transformer only. -/
def failingText : String := "import \x7b m \x7d from './m.js'; output = m;"

/-- Whether the entry program of a run has no import in the output and one statement. -/
def Run.isAlone (config : Config) (run : Run) : Bool := run.modules.all fun entry =>
  entry.1 ≠ entrySpecifier || ((entry.2.items.filterMap (·.statement?)).length == 1 &&
    entry.2.items.all fun
      | .importItem i => (Lowering.importNode? ⟨run.store, run.sources, config⟩ i).isNone
      | _ => true)

/-- How many statements were run last. -/
def Run.lastRan (run : Run) : Option Nat := run.events.head?.map fun
  | .ran code => code.length
  | _ => 0

theorem RunsModules.ne_nil {imports : String → String → Prop} {main : String} {expanded : Run}
    {result : EStateM.Result ExpandError Run Environment}
    (h : RunsModules imports main expanded order result) : order ≠ [] := by
  cases result with
  | ok env run =>
    rintro rfl
    cases (h.complete env run rfl).1
  | error e run => exact (h.fails e run rfl).1

/-- A module of which only transformers are imported is run, although the import is not in the output. -/
theorem evaluateProgram_runs_failing : ∃ record expanded, Expand.entry .failing failingText {} = .ok record expanded ∧
    ¬ ∃ order, RunsModules
      (Lowering.Imports ⟨expanded.store, expanded.sources, Setup.failing.config⟩ expanded.modules)
      entrySpecifier expanded order (evaluateProgram .failing failingText) := by
  have hlast : (finalRun (evaluateProgram .failing failingText)).lastRan = some 2 := by decide +kernel
  obtain ⟨record, expanded, hres, hok⟩ := exists_of_succeeds (Expand.entry .failing failingText {})
    (fun _ expanded => expanded.isAlone Setup.failing.config) (by decide +kernel)
  refine ⟨record, expanded, hres, ?_⟩
  rintro ⟨order, h⟩
  have halone : ∀ r, (entrySpecifier, r) ∈ expanded.modules → (r.items.filterMap (·.statement?)).length = 1 ∧
      ∀ i, .importItem i ∈ r.items →
        Lowering.importNode? ⟨expanded.store, expanded.sources, Setup.failing.config⟩ i = none := by
    intro r hr
    have hentry := all_eq_true.1 hok _ hr
    simp only [ne_eq, not_true_eq_false, decide_false, Bool.false_or, Bool.and_eq_true, beq_iff_eq,
      all_eq_true] at hentry
    exact ⟨hentry.1, fun i hi => Option.isNone_iff_eq_none.1 (hentry.2 _ hi)⟩
  obtain ⟨before, last, rfl⟩ := (eq_nil_or_concat order).resolve_left h.ne_nil
  obtain ⟨m, r⟩ := last
  have hm : m = entrySpecifier := by
    refine (Relation.ReflTransGen.cases_head (h.reached m (by simp [Assoc.keys]))).elim Eq.symm ?_
    rintro ⟨_, ⟨r', hr', i, hi, hnode, -⟩, -⟩
    rw [(halone r' hr').2 i hi] at hnode
    cases hnode
  have hcount := (halone r (hm ▸ h.known (by simp))).1
  rw [Run.lastRan, h.events] at hlast
  simp [ModuleRecord.running, hcount] at hlast

end Hygiene
