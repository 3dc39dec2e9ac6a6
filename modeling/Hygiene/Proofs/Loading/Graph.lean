import Hygiene.Proofs.Loading.Upkeep

/-!
# Loading the modules of a program

Modules are expanded and asked for once, each stands behind those it imports, and a circular import is reported with the
imports that lead to it.
-/

namespace Hygiene

open Expand (Yields)

/-- Nothing is kept up but the order of modules. -/
def orderUpkeep (s : Setup) : Upkeep s where
  Holds _ := True
  Failed _ := True
  Known _ _ := True
  failed h := h
  reads _ h := h
  fails _ h := h
  known _ h := h
  imports _ _ _ _ _ := .intro (fun _ _ _ => ⟨trivial, trivial⟩) fun _ _ _ => trivial
  keep _ _ _ _ _ h := h

/-- What an operation on a program has done about modules when it ends, with a result or with an error. -/
structure LoadsModules {α : Type} (main : String) (result : EStateM.Result ExpandError Run α) : Prop where
  /-- The expansion of a module begins at most once. -/
  expanded_once : ∀ specifier, (finalRun result).log.count (expandingMessage specifier) ≤ 1
  /-- The loader is asked for a module at most once. -/
  asked_once : (finalRun result).asked.Nodup
  /-- No module is left on the stack. -/
  restored : (finalRun result).loading = []
  /-- After a success the modules are different, the main one is the last, each stands behind those that it imports, and
  none imports itself through others. -/
  in_order : ∀ a run, result = .ok a run → (Assoc.keys run.modules).Nodup ∧
    (Assoc.keys run.modules).getLast? = some main ∧ ImportsFirst run.modules ∧
    ∀ m, ¬ Relation.TransGen (Imports run.modules) m m
  /-- A circular import is reported with the imports that lead to it. -/
  circular : ∀ e run chain, result = .error e run → e.fault = .circularImport chain →
    ∃ last, ImportRequest.Closes last run.requests chain

theorem Loads.Once.count_le_one {run : Run} (h : run.loads.Once) (specifier : String) :
    run.log.count (expandingMessage specifier) ≤ 1 := by
  rw [← List.count_filter (isExpandingMessage_expandingMessage specifier)]
  exact List.nodup_iff_count.1 h.begun _

theorem LoadsModules.of_yields {α : Type} {main : String} {x : Expand α} (hr : Expand.Restores x)
    (hx : Yields {} x (fun _ run => run.loads.Ordered ∧ (Assoc.keys run.modules).getLast? = some main)
      fun e run => run.loads.Stopped e.fault) : LoadsModules main (x {}) := by
  have hstack : (finalRun (x {})).loading = [] := hr.final {}
  cases heq : x {} with
  | ok a run =>
    rw [heq] at hstack
    obtain ⟨hordered, hlast⟩ := hx.ok heq
    have hnodup := hordered.modules_nodup
    refine ⟨hordered.once.count_le_one, hordered.asked_nodup, hstack, ?_, fun _ _ _ h => by cases h⟩
    rintro _ _ ⟨⟩
    exact ⟨hnodup, hlast, hordered.importsFirst, hordered.importsFirst.acyclic hnodup⟩
  | error e run =>
    rw [heq] at hstack
    have hstopped := hx.error heq
    refine ⟨hstopped.once.count_le_one, hstopped.once.asked, hstack, (fun _ _ h => by cases h), ?_⟩
    rintro _ _ chain ⟨⟩ hfault
    exact hstopped.cycle chain (by rw [hfault]; rfl)

/-- Modules that are in order stay so while nothing is done about them. -/
theorem LoadsModules.of_bind {s : Setup} {α β : Type} {main : String} {x : Expand α} {f : α → Expand β} {Q : α → Run → Prop}
    (hr : Expand.Restores x) (hx : Yields {} x (fun a run => (orderUpkeep s).Leaves {} run ∧
      (Assoc.keys run.modules).getLast? = some main ∧ Q a run) (orderUpkeep s).Stops) (hf : ∀ a, Expand.Aside (f a)) : LoadsModules main ((x >>= f) {}) := by
  refine .of_yields (.bind hr fun a => (hf a).restores) ?_
  refine .bind (hx.imp (fun _ _ h => h) fun _ _ h => h.stopped) ?_
  rintro a run ⟨h, hlast, -⟩
  refine (hf a run).imp (fun b run' hsame => ?_) fun e run' he => ?_
  · have hloads : run'.loads = run.loads := hsame
    have hmodules : run'.modules = run.modules := congrArg Loads.modules hloads
    exact ⟨hloads ▸ h.ordered, hmodules ▸ hlast⟩
  · have hloads : run'.loads = run.loads := he.1
    exact hloads ▸ h.ordered.once.stopped he.2

/-- In every operation on a program each module is expanded and asked for at most once, comes after the modules that it
imports, and leaves the stack of modules when its expansion ends; a circular import is reported with the imports that
lead to it. The stack is restored by every load, in whatever run. -/
theorem modules_loaded_in_order (s : Setup) :
    (∀ text, LoadsModules entrySpecifier (expandProgram s text)) ∧
    (∀ text, LoadsModules entrySpecifier (evaluateProgram s text)) ∧
    (∀ specifier, LoadsModules specifier (expandModule s specifier)) ∧
    ∀ specifier text dialect site run,
      (finalRun (Expand.load s (Expand.items s) specifier site run)).loading = run.loading ∧
      (finalRun (Expand.compile (Expand.items s) specifier text dialect run)).loading = run.loading := by
  have hentry : ∀ text, Expand.Restores (Expand.entry s text) := fun text => Expand.restores_compile s _ text _
  have hload := Expand.restores_load s
  have hrun : ∀ record, Expand.Aside (do
      let run ← get
      Expand.runModule s .runtime (Expand.instantiate s .runtime run.modules.length) record) := fun record =>
    .executes (.bind .get fun run => Expand.executes_runModule s .runtime _ record)
  refine ⟨fun text => ?_, fun text => ?_, fun specifier => ?_, fun specifier text dialect site run => ?_⟩
  · exact .of_bind (hentry text) ((orderUpkeep s).entry trivial text) (Expand.aside_finish s)
  · exact .of_bind (hentry text) ((orderUpkeep s).entry trivial text) hrun
  · exact .of_bind (hload specifier _) ((orderUpkeep s).loadItems trivial specifier) (Expand.aside_finish s)
  · exact ⟨(hload specifier site).final run, (Expand.restores_compile s specifier text dialect).final run⟩

/-- Two modules that import each other. -/
example : (match expandModule
      { load := fun m => .ok (if m = "a" then "import from \"b\"" else "import from \"a\""), limit := 12 } "a" with
    | .error e _ => e.fault.cycle?
    | .ok _ _ => none) = some ["a", "b", "a"] := by decide +kernel

end Hygiene
