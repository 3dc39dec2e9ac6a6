import Hygiene.Module.Loader
import Hygiene.Proofs.Loading.Graph
import Mathlib.Data.List.Nodup

/-!
# Each module runs once in a phase

Running a module is taken down when it is entered, when its statements start and finish, and when its instance is given
to an importer. `Run.Orderly` says that this happens in order. Modules that are being run stand behind the one that is
run next, so none of them is entered again. `Expand.Plays` says of a computation that it runs modules in order, and
which ones.
-/

namespace Hygiene

open List

variable {activity : Activity} {e : ExpandError} {activities activities' : List Activity} {s : Setup}

/-! ### Imports for runtime -/

namespace ModuleRecord

/-- The modules that a module imports for runtime. -/
def runtimeImports (r : ModuleRecord) : List String := (r.items.filterMap (·.runtimeImport?)).map (·.specifier)

/-- What is taken down when the statements of a module are run. -/
def running (r : ModuleRecord) : Event := .ran (r.items.filterMap (·.statement?))

theorem mem_runtimeImports {r : ModuleRecord} {m : String} :
    m ∈ r.runtimeImports ↔ ∃ i, .importItem i ∈ r.items ∧ i.forSyntax = false ∧ i.specifier = m := by
  unfold runtimeImports
  rw [mem_map]
  constructor
  · rintro ⟨i, hi, rfl⟩
    obtain ⟨item, hitem, heq⟩ := mem_filterMap.1 hi
    cases item with
    | importItem imported =>
      rw [ModuleItem.runtimeImport?] at heq
      split at heq
      · cases heq
      · next hruntime =>
        cases heq
        exact ⟨i, hitem, by simpa using hruntime, rfl⟩
    | _ => cases heq
  · rintro ⟨i, hi, hruntime, rfl⟩
    exact ⟨i, mem_filterMap.2 ⟨_, hi, by simp [ModuleItem.runtimeImport?, hruntime]⟩, rfl⟩

end ModuleRecord

/-- One module imports another for runtime. -/
def RuntimeImports (modules : List (String × ModuleRecord)) (importer imported : String) : Prop :=
  ∃ record, (importer, record) ∈ modules ∧ imported ∈ record.runtimeImports

theorem RuntimeImports.imports {modules : List (String × ModuleRecord)} {importer imported : String}
    (h : RuntimeImports modules importer imported) : Imports modules importer imported := by
  obtain ⟨record, hmem, himported⟩ := h
  obtain ⟨i, hi, -, heq⟩ := ModuleRecord.mem_runtimeImports.1 himported
  exact ⟨record, hmem, i, hi, heq⟩

/-! ### Running in order -/

/-- The module that was entered, and its phase. -/
def Activity.entered? : Activity → Option (String × Phase)
  | entered specifier phase => some (specifier, phase)
  | _ => none

/-- The module whose statements have started, and its phase. -/
def Activity.started? : Activity → Option (ModuleRecord × Phase)
  | started record phase => some (record, phase)
  | _ => none

/-- The modules that were entered with their phases, the last one first. -/
def Run.entries (run : Run) : List (String × Phase) := run.activities.filterMap (·.entered?)

/-- The modules whose statements have started with their phases, the last one first. -/
def Run.starts (run : Run) : List (ModuleRecord × Phase) := run.activities.filterMap (·.started?)

theorem Activity.eq_of_started? {record : ModuleRecord} {phase : Phase}
    (h : activity.started? = some (record, phase)) : activity = .started record phase := by
  cases activity <;> cases h
  rfl

theorem Run.mem_starts {run : Run} {record : ModuleRecord} {phase : Phase} :
    (record, phase) ∈ run.starts ↔ .started record phase ∈ run.activities := by
  rw [starts, mem_filterMap]
  constructor
  · rintro ⟨activity, hmem, heq⟩
    exact Activity.eq_of_started? heq ▸ hmem
  · exact fun h => ⟨_, h, rfl⟩

/-- The statements of the module have started and finished in the phase. -/
structure Ran (activities : List Activity) (phase : Phase) (m : String) : Prop where
  started : ∃ record, record.specifier = m ∧ .started record phase ∈ activities
  finished : .finished m phase ∈ activities

/-- The module has run in the phase, and its instance was given. -/
structure Played (activities : List Activity) (phase : Phase) (m : String) : Prop extends Ran activities phase m where
  given : ∃ values, .given m phase values ∈ activities

theorem Ran.mono (h : activities ⊆ activities') {phase : Phase} {m : String}
    (hm : Ran activities phase m) : Ran activities' phase m :=
  ⟨hm.started.imp fun _ hs => ⟨hs.1, h hs.2⟩, h hm.finished⟩

theorem Played.mono (h : activities ⊆ activities') {phase : Phase} {m : String}
    (hm : Played activities phase m) : Played activities' phase m :=
  ⟨hm.toRan.mono h, hm.given.imp fun _ hgiven => h hgiven⟩

/-- The statements of a module start when the modules that it imports for runtime have been played. -/
def StartsInOrder (activities : List Activity) : Prop := ∀ later record phase earlier,
  activities = later ++ .started record phase :: earlier → ∀ i ∈ record.runtimeImports, Played earlier phase i

theorem StartsInOrder.cons (h : StartsInOrder activities)
    (hstarted : ∀ record phase, activity = .started record phase →
      ∀ i ∈ record.runtimeImports, Played activities phase i) : StartsInOrder (activity :: activities) := by
  intro later record phase earlier heq
  cases later with
  | nil =>
    obtain ⟨rfl, rfl⟩ := List.cons.inj heq
    exact hstarted record phase rfl
  | cons _ later => exact h later record phase earlier (List.cons.inj heq).2

/-- The module is being run in its phase, or it has an instance. -/
def Run.Begun (opened : List (String × Phase)) (run : Run) (key : String × Phase) : Prop :=
  key ∈ opened ∨ ∃ values, Assoc.get? key run.instances = some values

/-- The code of modules is run in order, and the modules of `opened` are being run. -/
structure Run.Orderly (opened : List (String × Phase)) (run : Run) : Prop where
  once : run.entries.Nodup
  entered : ∀ key ∈ run.entries, run.Begun opened key
  opened_nodup : opened.Nodup
  pending : ∀ key ∈ opened, Assoc.get? key run.instances = none
  startedOnce : run.starts.Nodup
  started : ∀ record phase, .started record phase ∈ run.activities →
    (record.specifier, record) ∈ run.modules ∧ run.Begun opened (record.specifier, phase)
  ran : ∀ m phase values, Assoc.get? (m, phase) run.instances = some values → Ran run.activities phase m
  given : ∀ m phase values, .given m phase values ∈ run.activities → Assoc.get? (m, phase) run.instances = some values
  importsFirst : StartsInOrder run.activities

namespace Run.Orderly

variable {opened : List (String × Phase)} {run run' : Run} {m : String} {phase : Phase}

theorem empty : Run.Orderly [] {} where
  once := nodup_nil
  entered := nofun
  opened_nodup := nodup_nil
  pending := nofun
  startedOnce := nodup_nil
  started := nofun
  ran := nofun
  given := nofun
  importsFirst := fun later _ _ _ heq => by cases later <;> cases heq

theorem of_same (h : run.Orderly opened) (hsame : run'.moduleState = run.moduleState) : run'.Orderly opened := by
  obtain ⟨hmodules, hinstances, hactivities, -⟩ := ModuleState.mk.inj hsame
  have hentries : run'.entries = run.entries := congrArg (List.filterMap Activity.entered?) hactivities
  have hstarts : run'.starts = run.starts := congrArg (List.filterMap Activity.started?) hactivities
  refine ⟨?_, ?_, h.opened_nodup, ?_, ?_, ?_, ?_, ?_, ?_⟩ <;>
    simp only [hentries, hstarts, hmodules, hinstances, hactivities, Begun]
  exacts [h.once, h.entered, h.pending, h.startedOnce, h.started, h.ran, h.given, h.importsFirst]

/-- A module that has no instance and is not being run can be entered. -/
theorem enter (h : run.Orderly opened) (hnew : Assoc.get? (m, phase) run.instances = none)
    (hclosed : (m, phase) ∉ opened) :
    Run.Orderly ((m, phase) :: opened) { run with activities := .entered m phase :: run.activities } where
  once := by
    refine nodup_cons.2 ⟨fun hmem => ?_, h.once⟩
    rcases h.entered _ hmem with hopened | ⟨values, hget⟩
    · exact hclosed hopened
    · rw [hnew] at hget
      cases hget
  entered := by
    intro key hkey
    rcases mem_cons.1 hkey with rfl | hkey
    · exact Or.inl mem_cons_self
    · exact (h.entered key hkey).imp_left (mem_cons_of_mem _)
  opened_nodup := nodup_cons.2 ⟨hclosed, h.opened_nodup⟩
  pending := forall_mem_cons.2 ⟨hnew, h.pending⟩
  startedOnce := h.startedOnce
  started := fun record phase hmem => by
    have hold := h.started record phase ((mem_cons.1 hmem).resolve_left nofun)
    exact ⟨hold.1, hold.2.imp_left (mem_cons_of_mem _)⟩
  ran := fun m phase values hget => (h.ran m phase values hget).mono (subset_cons_self _ _)
  given := fun m phase values hmem => h.given m phase values ((mem_cons.1 hmem).resolve_left nofun)
  importsFirst := h.importsFirst.cons nofun

/-- What does not enter a module is taken down, in order. -/
theorem track (h : run.Orderly opened) (hentered : activity.entered? = none)
    (hgiven : ∀ m phase values, activity = .given m phase values → Assoc.get? (m, phase) run.instances = some values)
    (hstarted : ∀ record phase, activity = .started record phase → (record.specifier, record) ∈ run.modules ∧
      (record.specifier, phase) ∈ opened ∧ (record, phase) ∉ run.starts ∧
      ∀ i ∈ record.runtimeImports, Played run.activities phase i) :
    Run.Orderly opened { run with activities := activity :: run.activities } := by
  have hentries : Run.entries { run with activities := activity :: run.activities } = run.entries :=
    filterMap_cons_none hentered
  refine ⟨hentries ▸ h.once, hentries ▸ h.entered, h.opened_nodup, h.pending, ?_, ?_, ?_, ?_, ?_⟩
  · rw [Run.starts, filterMap_cons]
    split
    · exact h.startedOnce
    · next key heq => exact nodup_cons.2 ⟨(hstarted _ _ (Activity.eq_of_started? heq)).2.2.1, h.startedOnce⟩
  · intro record phase hmem
    rcases mem_cons.1 hmem with heq | hmem
    · exact ⟨(hstarted record phase heq.symm).1, Or.inl (hstarted record phase heq.symm).2.1⟩
    · exact h.started record phase hmem
  · exact fun m phase values hget => (h.ran m phase values hget).mono (subset_cons_self _ _)
  · exact fun m phase values hmem => (mem_cons.1 hmem).elim (hgiven m phase values ·.symm) (h.given m phase values)
  · exact h.importsFirst.cons fun record phase heq => (hstarted record phase heq).2.2.2

/-- The statements of a module can start when the modules that it imports for runtime have been played. -/
theorem start (h : run.Orderly opened) {record : ModuleRecord} (hmem : (record.specifier, record) ∈ run.modules)
    (hopened : (record.specifier, phase) ∈ opened) (hnew : (record, phase) ∉ run.starts)
    (hplayed : ∀ i ∈ record.runtimeImports, Played run.activities phase i) :
    Run.Orderly opened { run with activities := .started record phase :: run.activities } := by
  refine h.track rfl nofun ?_
  rintro _ _ ⟨⟩
  exact ⟨hmem, hopened, hnew, hplayed⟩

theorem finish (h : run.Orderly opened) :
    Run.Orderly opened { run with activities := .finished m phase :: run.activities } := h.track rfl nofun nofun

/-- The instance that is kept may be given. -/
theorem give (h : run.Orderly opened) {values : Instance} (hget : Assoc.get? (m, phase) run.instances = some values) :
    Run.Orderly opened { run with activities := .given m phase values :: run.activities } := by
  refine h.track rfl ?_ nofun
  rintro _ _ _ ⟨⟩
  exact hget

/-- The instance of a module whose statements have finished is kept, and the module is no longer being run. -/
theorem close (h : run.Orderly ((m, phase) :: opened)) (hran : Ran run.activities phase m) (values : Instance) :
    Run.Orderly opened { run with instances := Assoc.insert (m, phase) values run.instances } := by
  have hnew : Assoc.get? (m, phase) run.instances = none := h.pending _ mem_cons_self
  have hself : Assoc.get? (m, phase) (Assoc.insert (m, phase) values run.instances) = some values := by
    rw [Assoc.get?_insert, if_pos (beq_self_eq_true _)]
  have hother : ∀ key, key ≠ (m, phase) →
      Assoc.get? key (Assoc.insert (m, phase) values run.instances) = Assoc.get? key run.instances := by
    intro key hne
    rw [Assoc.get?_insert, if_neg (by simpa using Ne.symm hne)]
  have hbegun : ∀ key, run.Begun ((m, phase) :: opened) key →
      Run.Begun opened { run with instances := Assoc.insert (m, phase) values run.instances } key := by
    intro key hkey
    by_cases hne : key = (m, phase)
    · subst hne
      exact Or.inr ⟨values, hself⟩
    · refine hkey.imp (fun hopened => (mem_cons.1 hopened).resolve_left hne) ?_
      rintro ⟨values', hget⟩
      exact ⟨values', (hother key hne).trans hget⟩
  refine ⟨h.once, fun key hkey => hbegun key (h.entered key hkey), (nodup_cons.1 h.opened_nodup).2, fun key hkey => ?_,
    h.startedOnce, fun record phase hmem => (h.started record phase hmem).imp_right (hbegun _), ?_, ?_, h.importsFirst⟩
  · refine (hother key ?_).trans (h.pending key (mem_cons_of_mem _ hkey))
    rintro rfl
    exact (nodup_cons.1 h.opened_nodup).1 hkey
  · intro m' phase' values' hget
    by_cases hne : (m', phase') = (m, phase)
    · cases hne
      exact hran
    · exact h.ran m' phase' values' ((hother _ hne).symm.trans hget)
  · intro m' phase' values' hgiven
    have hget := h.given m' phase' values' hgiven
    refine (hother _ ?_).trans hget
    rintro heq
    rw [heq, hnew] at hget
    cases hget

/-- A record that is kept changes nothing about what was run. -/
theorem keeping (h : run.Orderly opened) {record : ModuleRecord} (hnew : record.specifier ∉ Assoc.keys run.modules) :
    (run.keeping record).Orderly opened := by
  refine { h with started := fun record' phase' hstarted => ?_ }
  have hold := h.started record' phase' hstarted
  refine ⟨?_, hold.2⟩
  show _ ∈ Assoc.insert record.specifier record run.modules
  rw [Assoc.insert_of_not_mem_keys hnew]
  exact mem_append_left _ hold.1

end Run.Orderly

/-! ### Running one module -/

/-- The modules are in order, and kept under their specifiers. -/
structure Registered (modules : List (String × ModuleRecord)) : Prop where
  importsFirst : ImportsFirst modules
  nodup : (Assoc.keys modules).Nodup
  named : ∀ entry ∈ modules, entry.1 = entry.2.specifier

/-- All modules that are being run stand behind the module. -/
def Behind (modules : List (String × ModuleRecord)) (opened : List (String × Phase)) (m : String) : Prop :=
  ∀ key ∈ opened, (Assoc.keys modules).idxOf m < (Assoc.keys modules).idxOf key.1

theorem behind_nil (modules : List (String × ModuleRecord)) (m : String) : Behind modules [] m :=
  fun _ hkey => absurd hkey not_mem_nil

/-- Whether the fault comes from code that was run. -/
def ExpandFault.isOfCode : ExpandFault → Bool
  | evaluation _ => true
  | exhausted => true
  | _ => false

namespace Expand

open Relation

variable {modules : List (String × ModuleRecord)} {phase : Phase} {reach reach' : String → Prop}
  {opened opened' : List (String × Phase)} {run run' run'' : Run} {α β : Type} {record : ModuleRecord}
  {instantiate : ModuleRecord → Expand Instance}

/-- Modules that satisfy `reach` are run in order, and those of `opened` are being run afterwards. -/
structure Goes (modules : List (String × ModuleRecord)) (phase : Phase) (reach : String → Prop)
    (opened : List (String × Phase)) (run run' : Run) : Prop where
  modules : run'.modules = modules
  orderly : run'.Orderly opened
  activities : run.activities ⊆ run'.activities
  instances : ∀ entry ∈ run'.instances, entry ∈ run.instances ∨ entry.1.2 = phase
  order : ∃ order : List ModuleRecord, run'.starts = order.map (·, phase) ++ run.starts ∧
    run'.events = order.map (·.running) ++ run.events ∧ ∀ r ∈ order, reach r.specifier

/-- What is left when running modules fails: they were run in order so far, and the code of one has failed. -/
structure Breaks (modules : List (String × ModuleRecord)) (phase : Phase) (reach : String → Prop) (run : Run)
    (e : ExpandError) (run' : Run) : Prop where
  goes : ∃ opened, Goes modules phase reach opened run run'
  ofCode : e.fault.isOfCode = true
  started : run.starts.length < run'.starts.length

/-- Started in the run, the computation runs modules in order. -/
def Plays (modules : List (String × ModuleRecord)) (phase : Phase) (reach : String → Prop)
    (opened : List (String × Phase)) (run : Run) (x : Expand α) (P : α → Run → Prop) : Prop :=
  Yields run x (fun a run' => Goes modules phase reach opened run run' ∧ P a run') (Breaks modules phase reach run)

theorem Goes.of_same (hrun : run.modules = modules) (h : run.Orderly opened) (hsame : run'.moduleState = run.moduleState)
    (hevents : run'.events = run.events) : Goes modules phase reach opened run run' := by
  obtain ⟨hmodules, hinstances, hactivities, -⟩ := ModuleState.mk.inj hsame
  refine ⟨hmodules.trans hrun, h.of_same hsame, hactivities ▸ List.Subset.refl _, fun _ he => Or.inl (hinstances ▸ he), [],
    ?_, hevents, nofun⟩
  exact congrArg (List.filterMap Activity.started?) hactivities

/-- What does not start the statements of a module is taken down. -/
theorem Goes.track (hrun : run.modules = modules) (hactivity : activity.started? = none)
    (h : Run.Orderly opened { run with activities := activity :: run.activities }) :
    Goes modules phase reach opened run { run with activities := activity :: run.activities } :=
  ⟨hrun, h, subset_cons_self _ _, fun _ => Or.inl, [], filterMap_cons_none hactivity, rfl, nofun⟩

theorem Goes.trans (h : Goes modules phase reach' opened run run') (h' : Goes modules phase reach opened' run' run'')
    (hreach : ∀ m, reach' m → reach m) : Goes modules phase reach opened' run run'' := by
  obtain ⟨order, hstarts, hevents, hreached⟩ := h.order
  obtain ⟨order', hstarts', hevents', hreached'⟩ := h'.order
  refine ⟨h'.modules, h'.orderly, List.Subset.trans h.activities h'.activities, fun entry he => ?_, order' ++ order, ?_, ?_,
    forall_mem_append.2 ⟨hreached', fun r hr => hreach _ (hreached r hr)⟩⟩
  · exact (h'.instances entry he).elim (h.instances entry) Or.inr
  · rw [hstarts', hstarts, map_append, append_assoc]
  · rw [hevents', hevents, map_append, append_assoc]

theorem Goes.mono (h : Goes modules phase reach' opened run run') (hreach : ∀ m, reach' m → reach m) :
    Goes modules phase reach opened run run' :=
  h.trans (.of_same h.modules h.orderly rfl rfl) hreach

theorem Goes.breaks (h : Goes modules phase reach' opened run run') (hreach : ∀ m, reach' m → reach m)
    (hb : Breaks modules phase reach run' e run'') : Breaks modules phase reach run e run'' := by
  obtain ⟨opened', hgoes⟩ := hb.goes
  obtain ⟨order, hstarts, -⟩ := h.order
  refine ⟨⟨opened', h.trans hgoes hreach⟩, hb.ofCode, Nat.lt_of_le_of_lt ?_ hb.started⟩
  rw [hstarts, List.length_append]
  exact Nat.le_add_left _ _

theorem Breaks.mono (hb : Breaks modules phase reach' run e run') (hreach : ∀ m, reach' m → reach m) :
    Breaks modules phase reach run e run' :=
  ⟨hb.goes.imp fun _ h => h.mono hreach, hb.ofCode, hb.started⟩

theorem Plays.bind {x : Expand α} {f : α → Expand β} {P : α → Run → Prop} {Q : β → Run → Prop}
    (hx : Plays modules phase reach' opened run x P) (hreach : ∀ m, reach' m → reach m)
    (hf : ∀ a run', Goes modules phase reach' opened run run' → P a run' →
      Plays modules phase reach opened' run' (f a) Q) :
    Plays modules phase reach opened' run (x >>= f) Q := by
  refine Yields.bind (hx.imp (fun _ _ h => h) fun _ _ hb => hb.mono hreach) ?_
  rintro a run' ⟨hgoes, hP⟩
  exact (hf a run' hgoes hP).imp (fun _ _ h => ⟨hgoes.trans h.1 hreach, h.2⟩) fun _ _ hb => hgoes.breaks hreach hb

/-- Making an instance of a module runs what the module reaches, and gives the instance. -/
def Instantiates (modules : List (String × ModuleRecord)) (phase : Phase) (instantiate : ModuleRecord → Expand Instance)
    (record : ModuleRecord) : Prop :=
  ∀ opened run, Behind modules opened record.specifier → run.modules = modules → run.Orderly opened →
    Plays modules phase (ReflTransGen (RuntimeImports modules) record.specifier) opened run (instantiate record)
      fun _ run' => Played run'.activities phase record.specifier

/-- Every module that the module imports for runtime can be instantiated. -/
def InstantiatesImports (modules : List (String × ModuleRecord)) (phase : Phase)
    (instantiate : ModuleRecord → Expand Instance) (m : String) : Prop :=
  ∀ record, RuntimeImports modules m record.specifier → (record.specifier, record) ∈ modules →
    Instantiates modules phase instantiate record

theorem plays_defineImports (hm : Registered modules) {m : String} (hi : InstantiatesImports modules phase instantiate m)
    (env : Environment) {imported : Import} (himports : RuntimeImports modules m imported.specifier)
    (hbehind : Behind modules opened imported.specifier) (hrun : run.modules = modules) (h : run.Orderly opened) :
    Plays modules phase (TransGen (RuntimeImports modules) m) opened run (defineImports instantiate env imported)
      fun _ run' => Played run'.activities phase imported.specifier := by
  refine Yields.get_bind ?_
  split
  · next hget => exact absurd (hrun ▸ hm.importsFirst.mem_keys himports.imports) (Assoc.not_mem_keys_of_get? hget)
  · next record hget =>
    have hmem : (imported.specifier, record) ∈ modules := hrun ▸ Assoc.mem_of_get? hget
    have hspecifier : imported.specifier = record.specifier := hm.named _ hmem
    rw [hspecifier] at himports hbehind hmem ⊢
    refine Plays.bind (hi record himports hmem opened run hbehind hrun h) (fun _ => TransGen.head' himports) ?_
    exact fun values run₁ h₁ hplayed => .of_ok rfl ⟨.of_same h₁.modules h₁.orderly rfl rfl, hplayed⟩

/-- An environment in which the imports of a module are defined. -/
def linkImports (phase : Phase) (instantiate : ModuleRecord → Expand Instance) (record : ModuleRecord) :
    Expand Environment := do
  track (.entered record.specifier phase)
  let env ← newEnvironment
  (record.items.filterMap (·.runtimeImport?)).forM (defineImports instantiate env)
  return env

/-- Entering a module plays the modules that it imports for runtime. -/
theorem plays_linkImports (hm : Registered modules)
    (hi : InstantiatesImports modules phase instantiate record.specifier) (hmem : (record.specifier, record) ∈ modules)
    (hbehind : Behind modules opened record.specifier) (hrun : run.modules = modules) (h : run.Orderly opened)
    (hnew : Assoc.get? (record.specifier, phase) run.instances = none) :
    Plays modules phase (TransGen (RuntimeImports modules) record.specifier) ((record.specifier, phase) :: opened) run
      (linkImports phase instantiate record)
      fun _ run' => ∀ i ∈ record.runtimeImports, Played run'.activities phase i := by
  have hclosed : (record.specifier, phase) ∉ opened := fun hopened => Nat.lt_irrefl _ (hbehind _ hopened)
  refine .bind (P := fun _ _ => True) (.of_ok rfl ⟨.track hrun rfl (h.enter hnew hclosed), trivial⟩) (fun _ hr => hr)
    fun _ run₁ h₁ _ => ?_
  refine .bind (P := fun _ _ => True) (.of_ok rfl ⟨.of_same h₁.modules h₁.orderly rfl rfl, trivial⟩) (fun _ hr => hr)
    fun env run₂ h₂ _ => ?_
  refine Yields.bind (.forM_mem
    (I := Goes modules phase (TransGen (RuntimeImports modules) record.specifier) ((record.specifier, phase) :: opened) run₂)
    (G := fun imported run' => Played run'.activities phase imported.specifier)
    (.of_same h₂.modules h₂.orderly rfl rfl) fun imported himported run' h' => ?_) ?_
  · have himports : RuntimeImports modules record.specifier imported.specifier :=
      ⟨record, hmem, mem_map.2 ⟨_, himported, rfl⟩⟩
    have hlt := hm.importsFirst.idxOf_lt hm.nodup himports.imports
    have hbehind' : Behind modules ((record.specifier, phase) :: opened) imported.specifier :=
      forall_mem_cons.2 ⟨hlt, fun key hkey => Nat.lt_trans hlt (hbehind key hkey)⟩
    refine (plays_defineImports hm hi env himports hbehind' h'.modules h'.orderly).imp ?_ fun _ _ hb =>
      h'.breaks (fun _ hr => hr) hb
    rintro _ run'' ⟨hgoes, hplayed⟩
    exact ⟨h'.trans hgoes fun _ hr => hr, hplayed, fun _ hb => hb.mono hgoes.activities⟩
  rintro _ run₃ ⟨h₃, hplayed, -⟩
  refine .pure ⟨h₃, fun i hi => ?_⟩
  obtain ⟨imported, himported, rfl⟩ := mem_map.1 hi
  exact hplayed imported himported

/-- Runs the statements of a module whose imports are defined. -/
def runStatements (s : Setup) (phase : Phase) (record : ModuleRecord) (env : Environment) : Expand Environment := do
  track (.started record phase)
  Expand.record record.running
  let list := record.items.filterMap (·.statement?)
  match ← evaluate s env ⟨some record.file, ⟨0, 0⟩⟩ fun w r => r.statements w list with
  | .ok _ =>
    track (.finished record.specifier phase)
    return env
  | .error signal => fail (.evaluation signal) signal.site

theorem runModule_eq (s : Setup) (phase : Phase) (instantiate : ModuleRecord → Expand Instance)
    (record : ModuleRecord) :
    runModule s phase instantiate record = linkImports phase instantiate record >>= runStatements s phase record := by
  unfold linkImports
  simp only [bind_assoc, pure_bind]
  rfl

/-- Code that is run changes the heap and what is reported. -/
theorem yields_evaluate (s : Setup) (env : Environment) (site : Site) (act : World → Evaluator → Eval α) (run : Run) :
    Yields run (evaluate s env site act)
      (fun _ run' => run'.moduleState = run.moduleState ∧ run'.events = run.events) fun e run' =>
        (run'.moduleState = run.moduleState ∧ run'.events = run.events) ∧ e.fault.isOfCode = true := by
  have hfinished : ∀ m, (finished run site m).moduleState = run.moduleState ∧ (finished run site m).events = run.events := by
    intro m
    obtain ⟨lines, diagnostics, h⟩ := finished_eq run site m
    rw [h]
    exact ⟨rfl, rfl⟩
  unfold Yields
  rw [evaluate_eq]
  cases act _ (evaluator _ s.limit) _ with
  | ok value m => exact hfinished m
  | error signal m =>
    cases signal with
    | exhausted => exact ⟨hfinished m, rfl⟩
    | _ => exact hfinished m

/-- The statements of a module start when the modules that it imports have been played. -/
theorem plays_runStatements (s : Setup) (hmem : (record.specifier, record) ∈ modules) (hreach : reach record.specifier)
    (hrun : run.modules = modules) (h : run.Orderly opened) (hopened : (record.specifier, phase) ∈ opened)
    (hnew : (record, phase) ∉ run.starts) (hplayed : ∀ i ∈ record.runtimeImports, Played run.activities phase i)
    (env : Environment) : Plays modules phase reach opened run (runStatements s phase record env)
      fun _ run' => Ran run'.activities phase record.specifier ∧ run'.starts.head? = some (record, phase) := by
  obtain ⟨run₁, hrun₁⟩ : ∃ run₁ : Run, run₁ =
    { run with activities := .started record phase :: run.activities, events := record.running :: run.events } := ⟨_, rfl⟩
  have hstarts : run₁.starts = (record, phase) :: run.starts := by rw [hrun₁]; rfl
  have hgoes : Goes modules phase reach opened run run₁ := by
    refine ⟨?_, ?_, ?_, ?_, [record], hstarts, ?_, by simpa using hreach⟩ <;> rw [hrun₁]
    · exact hrun
    · exact (h.start (hrun ▸ hmem) hopened hnew hplayed).of_same rfl
    · exact subset_cons_self _ _
    · exact fun _ => Or.inl
    · rfl
  have hsame : ∀ {run' : Run}, run'.moduleState = run₁.moduleState ∧ run'.events = run₁.events →
      Goes modules phase reach opened run run' ∧ run'.activities = .started record phase :: run.activities := by
    rintro run' ⟨hstate, hevents⟩
    refine ⟨hgoes.trans (.of_same hgoes.modules hgoes.orderly hstate hevents) fun _ hr => hr, ?_⟩
    exact (congrArg ModuleState.activities hstate).trans (by rw [hrun₁]; rfl)
  have hbreaks : ∀ {run' : Run} {e : ExpandError}, run'.moduleState = run₁.moduleState ∧ run'.events = run₁.events →
      e.fault.isOfCode = true → Breaks modules phase reach run e run' := by
    intro run' e hstate he
    refine ⟨⟨opened, (hsame hstate).1⟩, he, ?_⟩
    simp [Run.starts, (hsame hstate).2, Activity.started?]
  have htrack : track (.started record phase) run =
    .ok () { run with activities := .started record phase :: run.activities } := rfl
  have hrecord : Expand.record record.running { run with activities := .started record phase :: run.activities } =
      .ok () run₁ := by
    rw [hrun₁]
    rfl
  refine Yields.bind_ok htrack (.bind_ok hrecord ?_)
  refine Yields.bind ((yields_evaluate s env _ _ run₁).imp (fun _ _ h => h) fun _ _ he => hbreaks he.1 he.2) ?_
  rintro result run₂ hstate
  cases result with
  | error signal => exact .fail (hbreaks hstate rfl)
  | ok _ =>
    obtain ⟨h₂, hactivities⟩ := hsame hstate
    refine .of_ok rfl ⟨h₂.trans (.track h₂.modules rfl h₂.orderly.finish) fun _ hr => hr, ⟨⟨record, rfl, ?_⟩, ?_⟩, ?_⟩
    · exact mem_cons_of_mem _ (hactivities ▸ mem_cons_self)
    · exact mem_cons_self
    · simp [Run.starts, hactivities, Activity.started?]

/-- Running a module that has no instance and stands before all that are being run: it runs the modules that it reaches,
and itself last. -/
theorem plays_runModule (s : Setup) (hm : Registered modules)
    (hi : InstantiatesImports modules phase instantiate record.specifier) (hmem : (record.specifier, record) ∈ modules)
    (hbehind : Behind modules opened record.specifier) (hrun : run.modules = modules) (h : run.Orderly opened)
    (hnew : Assoc.get? (record.specifier, phase) run.instances = none) :
    Plays modules phase (ReflTransGen (RuntimeImports modules) record.specifier) ((record.specifier, phase) :: opened) run
      (runModule s phase instantiate record)
      fun _ run' => Ran run'.activities phase record.specifier ∧ run'.starts.head? = some (record, phase) := by
  rw [runModule_eq]
  refine .bind (plays_linkImports hm hi hmem hbehind hrun h hnew) (fun _ hr => hr.to_reflTransGen) ?_
  intro env run₁ h₁ hplayed
  refine plays_runStatements s hmem .refl h₁.modules h₁.orderly mem_cons_self (fun hstarted => ?_) hplayed env
  obtain ⟨order, hstarts, -, hreached⟩ := h₁.order
  rw [hstarts, mem_append] at hstarted
  rcases hstarted with hnested | hearlier
  · obtain ⟨r, hr, heq⟩ := mem_map.1 hnested
    cases heq
    exact hm.importsFirst.acyclic hm.nodup _ (TransGen.mono (fun _ _ => RuntimeImports.imports) _ _ (hreached _ hr))
  · rcases (h.started record phase (Run.mem_starts.1 hearlier)).2 with hopened | ⟨values, hget⟩
    · exact Nat.lt_irrefl _ (hbehind _ hopened)
    · rw [hnew] at hget
      cases hget

/-- Instances are made in order. Imports are followed deep enough, since a module stands behind those that it imports. -/
theorem instantiates_instantiate (s : Setup) (phase : Phase) (hm : Registered modules) {limit : Nat}
    (hmem : (record.specifier, record) ∈ modules) (hlimit : (Assoc.keys modules).idxOf record.specifier < limit) :
    Instantiates modules phase (Expand.instantiate s phase limit) record := by
  induction limit generalizing record with
  | zero => cases hlimit
  | succ limit ih =>
    have hi : InstantiatesImports modules phase (Expand.instantiate s phase limit) record.specifier :=
      fun record' himports hmem' => ih hmem'
        (Nat.lt_of_lt_of_le (hm.importsFirst.idxOf_lt hm.nodup himports.imports) (Nat.le_of_lt_succ hlimit))
    intro opened run hbehind hrun h
    refine Yields.get_bind ?_
    dsimp only
    split
    · next values hget =>
      refine .of_ok rfl ⟨.track hrun rfl (h.give hget), ?_, values, mem_cons_self⟩
      exact (h.ran _ _ _ hget).mono (subset_cons_self _ _)
    · next hnew =>
      refine Plays.bind (plays_runModule s hm hi hmem hbehind hrun h hnew) (fun _ hr => hr) ?_
      intro env run₁ h₁ hran
      have hclose := h₁.orderly.close hran.1 (record.runtimeExports.map fun e => (e.1, exportValue run₁ env e.2))
      refine .of_ok rfl ⟨⟨h₁.modules, hclose.give ?_, subset_cons_self _ _, fun entry he => ?_, [], rfl, rfl, nofun⟩,
        hran.1.mono (subset_cons_self _ _), _, mem_cons_self⟩
      · rw [Assoc.get?_insert, if_pos (beq_self_eq_true _)]
      · exact (Assoc.eq_or_mem_of_mem_insert he).symm.imp_right fun heq => by rw [heq]

/-- There are enough levels for all modules. -/
theorem instantiates_all (s : Setup) (phase : Phase) (hm : Registered modules)
    (hmem : (record.specifier, record) ∈ modules) :
    Instantiates modules phase (Expand.instantiate s phase modules.length) record := by
  have hlength : (Assoc.keys modules).length = modules.length := length_map _
  refine instantiates_instantiate s phase hm hmem ?_
  rw [← hlength]
  exact idxOf_lt_length_of_mem (mem_map.2 ⟨_, hmem, rfl⟩)

end Expand

/-! ### All runs -/

/-- The code of modules was run in order and at compile time only, and the modules are kept under their specifiers. -/
structure Run.Staged (run : Run) : Prop where
  orderly : run.Orderly []
  named : ∀ entry ∈ run.modules, entry.1 = entry.2.specifier
  compileTime : ∀ entry ∈ run.instances, entry.1.2 = .compileTime

theorem Run.Staged.of_same {run run' : Run} (h : run.Staged) (hsame : run'.moduleState = run.moduleState) :
    run'.Staged := by
  have hmodules : run'.modules = run.modules := congrArg ModuleState.modules hsame
  have hinstances : run'.instances = run.instances := congrArg ModuleState.instances hsame
  exact ⟨h.orderly.of_same hsame, hmodules ▸ h.named, hinstances ▸ h.compileTime⟩

theorem Run.Staged.get?_runtime {run : Run} (h : run.Staged) (m : String) :
    Assoc.get? (m, Phase.runtime) run.instances = none := by
  cases hget : Assoc.get? (m, Phase.runtime) run.instances with
  | none => rfl
  | some values => cases h.compileTime _ (Assoc.mem_of_get? hget)

/-- The names of an import are bound in order. -/
theorem Expand.staged_bindImport (s : Setup) {run : Run} {record : ModuleRecord} (hm : Registered run.modules)
    (hmem : (record.specifier, record) ∈ run.modules) (imported : Import) (wanted : String × Token × Site) (h : run.Staged) :
    Yields run (bindImport s record imported wanted) (fun _ run' => run'.modules = run.modules ∧ run'.Staged)
      fun _ run' => ∃ opened, run'.Orderly opened := by
  obtain ⟨name, binding, site⟩ := wanted
  unfold bindImport
  dsimp only
  have hbind : ∀ {run' : Run} (kind : BindingKind), run'.modules = run.modules → run'.Staged →
      Yields run' (Expand.bind binding kind false) (fun _ run'' => run''.modules = run.modules ∧ run''.Staged)
        fun _ run'' => ∃ opened, run''.Orderly opened := by
    intro run' kind hmodules h'
    refine (yields_final (I := fun run'' => run''.moduleState = run'.moduleState)).2
      ((Apart.inert (inert_bind binding kind false)).final run') |>.imp (fun _ _ hsame => ?_) fun _ _ hsame => ?_
    · exact ⟨(congrArg ModuleState.modules hsame).trans hmodules, h'.of_same hsame⟩
    · exact ⟨[], h'.orderly.of_same hsame⟩
  split
  · exact .fail ⟨[], h.orderly⟩
  · refine .bind (hbind _ rfl h) fun id run₁ h₁ => .get_bind ?_
    split
    · exact .of_ok rfl ⟨h₁.1, h₁.2.of_same rfl⟩
    · exact .pure h₁
  · refine .ite (fun _ => .get_bind ?_) fun _ => .bind (hbind _ rfl h) fun _ run₁ h₁ => .pure h₁
    have hplays := instantiates_all s .compileTime hm hmem [] run (behind_nil _ _) rfl h.orderly
    refine .bind (hplays.imp (fun _ _ h => h.1) fun _ _ hb => hb.goes.imp fun _ hgoes => hgoes.orderly) fun values run₁ h₁ => ?_
    have hstaged : run₁.Staged := ⟨h₁.orderly, h₁.modules ▸ h.named, fun entry he =>
      (h₁.instances entry he).elim (h.compileTime entry) id⟩
    exact .bind (hbind _ h₁.modules hstaged) fun id run₂ h₂ => .of_ok rfl ⟨h₂.1, h₂.2.of_same rfl⟩

/-- The code of modules is run in order while modules are loaded. -/
def runningUpkeep (s : Setup) : Upkeep s where
  Holds := Run.Staged
  Failed run := ∃ opened, run.Orderly opened
  Known _ _ := True
  failed h := ⟨[], h.orderly⟩
  reads hreads h := h.of_same hreads.moduleState
  fails hreads h := h.imp fun _ hopened => hopened.of_same hreads.moduleState
  known _ h := h
  imports {run record} imported hr hmem _ h := by
    have hm : Registered run.modules := ⟨hr.ordered.importsFirst, hr.ordered.modules_nodup, h.named⟩
    have hspecifier : imported.specifier = record.specifier := h.named _ hmem
    rw [hspecifier] at hmem
    refine (Expand.Yields.forM (I := fun run' => run'.modules = run.modules ∧ run'.Staged) ⟨rfl, h⟩
      fun wanted _ run' h' => ?_).imp (fun _ _ h' => ⟨h'.2, trivial⟩) fun _ _ hb => hb
    rw [← h'.1] at hm hmem ⊢
    exact Expand.staged_bindImport s hm hmem imported wanted h'.2
  keep {run record} _ _ hnew _ _ h := by
    refine ⟨h.orderly.keeping hnew, fun entry hentry => ?_, h.compileTime⟩
    rcases Assoc.eq_or_mem_of_mem_insert hentry with heq | hold
    · rw [heq]
    · exact h.named entry hold

theorem Run.staged_empty : Run.Staged {} := ⟨.empty, nofun, nofun⟩

/-- A program that has been expanded runs its modules in order. -/
theorem Expand.plays_program {record : ModuleRecord} {expanded : Run} (hordered : expanded.loads.Ordered)
    (h : expanded.Staged) (hmem : (entrySpecifier, record) ∈ expanded.modules) :
    Plays expanded.modules .runtime (Relation.ReflTransGen (RuntimeImports expanded.modules) entrySpecifier)
      [(entrySpecifier, .runtime)] expanded
      (runModule s .runtime (Expand.instantiate s .runtime expanded.modules.length) record)
      fun _ run' => run'.starts.head? = some (record, .runtime) := by
  have hm : Registered expanded.modules := ⟨hordered.importsFirst, hordered.modules_nodup, h.named⟩
  have hspecifier : entrySpecifier = record.specifier := h.named _ hmem
  rw [hspecifier] at hmem ⊢
  refine (plays_runModule s hm (fun _ _ => instantiates_all s .runtime hm) hmem (behind_nil _ _) rfl h.orderly
    (h.get?_runtime _)).imp (fun _ _ h => ⟨h.1, h.2.2⟩) fun _ _ hb => hb

/-- In every run the code of modules is run in order. -/
theorem Run.Final.orderly {run : Run} (hrun : run.Final s) : ∃ opened, run.Orderly opened := by
  refine (runningUpkeep s).final Run.staged_empty (fun text record expanded hentry hordered h => ?_) hrun
  exact (Expand.plays_program hordered h (Expand.compile_keeps hentry)).imp (fun _ _ h => ⟨_, h.1.orderly⟩)
    fun _ _ hb => hb.goes.imp fun _ hgoes => hgoes.orderly

/-- In every run, whether it succeeds or fails: running a module begins at most once in each phase, all its importers in
a phase are given the instance that is kept, and its statements start when the modules that it imports for runtime have
finished in the phase and have given it their instances. -/
theorem Run.Final.modules_run_once {s : Setup} {run : Run} (hrun : run.Final s) :
    run.entries.Nodup ∧
    (∀ m phase values, .given m phase values ∈ run.activities → Assoc.get? (m, phase) run.instances = some values ∧
      ∀ values', .given m phase values' ∈ run.activities → values' = values) ∧
    ∀ later record phase earlier, run.activities = later ++ .started record phase :: earlier →
      (record.specifier, record) ∈ run.modules ∧ ∀ i, .importItem i ∈ record.items → i.forSyntax = false →
        .finished i.specifier phase ∈ earlier ∧ ∃ values, .given i.specifier phase values ∈ earlier := by
  obtain ⟨opened, h⟩ := hrun.orderly
  refine ⟨h.once, fun m phase values hgiven => ⟨h.given m phase values hgiven, fun values' hgiven' => ?_⟩, ?_⟩
  · exact Option.some.inj ((h.given m phase values' hgiven').symm.trans (h.given m phase values hgiven))
  · intro later record phase earlier hsplit
    refine ⟨(h.started record phase (hsplit ▸ mem_append_right _ mem_cons_self)).1, fun i hi hruntime => ?_⟩
    have hplayed := h.importsFirst later record phase earlier hsplit i.specifier
      (ModuleRecord.mem_runtimeImports.2 ⟨i, hi, hruntime, rfl⟩)
    exact ⟨hplayed.finished, hplayed.given⟩

/-- Two modules that import a third one. -/
def Setup.diamond : Setup where
  load := tableLoader [("./c.js", "export var c = 1;"), ("./a.js", "import \x7b c \x7d from './c.js'; export var a = c;"),
    ("./b.js", "import \x7b c \x7d from './c.js'; export var b = c;")]

/-- Both are imported for runtime, and one of them for compile-time code too. -/
def diamondText : String := "import \x7b a \x7d from './a.js' for syntax; import \x7b a as d \x7d from './a.js';" ++
  "import \x7b b \x7d from './b.js'; d + b;"

/-- All three run in the phases they are imported in, each once, and both importers are given the same instance. -/
theorem Run.Final.modules_run_once_diamond : ∃ run : Run, finalRun (evaluateProgram .diamond diamondText) = run ∧
    run.entries = [("./b.js", .runtime), ("./c.js", .runtime), ("./a.js", .runtime), ("<main>", .runtime),
      ("./c.js", .compileTime), ("./a.js", .compileTime)] ∧ run.entries.Nodup ∧
    (∀ values values', .given "./c.js" .runtime values ∈ run.activities →
      .given "./c.js" .runtime values' ∈ run.activities → values' = values) ∧
    ∀ later record earlier, run.activities = later ++ .started record .runtime :: earlier →
      ∀ i, .importItem i ∈ record.items → i.forSyntax = false → .finished i.specifier .runtime ∈ earlier := by
  have hentries : (finalRun (evaluateProgram .diamond diamondText)).entries = [("./b.js", .runtime), ("./c.js", .runtime),
      ("./a.js", .runtime), ("<main>", .runtime), ("./c.js", .compileTime), ("./a.js", .compileTime)] := by
    decide +kernel
  obtain ⟨honce, hgiven, hstarted⟩ := Run.Final.modules_run_once (.evaluation (s := .diamond) diamondText)
  exact ⟨_, rfl, hentries, honce, fun values values' h => (hgiven _ _ values h).2 values',
    fun later record earlier hsplit i hi hruntime => ((hstarted later record _ earlier hsplit).2 i hi hruntime).1⟩

end Hygiene
