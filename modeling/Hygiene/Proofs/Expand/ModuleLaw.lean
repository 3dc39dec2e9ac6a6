import Hygiene.Proofs.Expand.Law

/-!
# Laws of whole modules

A law of reading that also holds where modules are imported and kept holds of everything that expands modules. The
induction is on the depth of the readers: a module is expanded one level less deep than what imports it.
-/

namespace Hygiene

namespace Expand

/-- The computation succeeds and only takes down something about modules; no import that was begun is forgotten. -/
def Noted {α : Type} (x : Expand α) : Prop := ∀ run, ∃ a run', x run = .ok a run' ∧
  run' = { run with sources := run'.sources, log := run'.log, asked := run'.asked, requests := run'.requests } ∧
  run.requests <:+ run'.requests

theorem noted_note (message : String) : Noted (note message) := fun _ => ⟨_, _, rfl, rfl, List.suffix_refl _⟩

theorem noted_addSource (name text : String) : Noted (addSource name text) :=
  fun _ => ⟨_, _, rfl, rfl, List.suffix_refl _⟩

theorem noted_request (specifier : String) : Noted (request specifier) :=
  fun _ => ⟨_, _, rfl, rfl, List.suffix_cons _ _⟩

/-- Takes down that the loader is asked for a module. -/
def ask (specifier : String) : Expand Unit := modify fun run => { run with asked := specifier :: run.asked }

theorem noted_ask (specifier : String) : Noted (ask specifier) := fun _ => ⟨_, _, rfl, rfl, List.suffix_refl _⟩

/-- Keeps the record of a module. -/
def keep (specifier : String) (record : ModuleRecord) : Expand Unit :=
  modify fun run => { run with
    modules := Assoc.insert specifier record run.modules
    snapshots := ⟨specifier, run.store, run.registry⟩ :: run.snapshots }

theorem compile_eq (expand : Home → List Token → Expand (List ModuleItem)) (specifier text : String)
    (dialect : Dialect) : compile expand specifier text dialect = (do
      note ("expanding module '" ++ specifier ++ "'")
      let file ← addSource specifier text
      let (dialect, tokens) ← readModule specifier text file dialect
      let scope ← freshScope (.text file tokens)
      let items ← whileLoading specifier (expand ⟨specifier, file, dialect⟩ (Token.wrap scope tokens))
      match ModuleRecord.ofItems (← get).store specifier file dialect items with
      | .error ident => fail (.parse (.undeclaredExport ident.name)) ident.site
      | .ok record =>
        keep specifier record
        return record) := rfl

/-- Loading a module: it is known, or being expanded, or it is asked for and expanded. -/
theorem load_eq (s : Setup) (expand : Home → List Token → Expand (List ModuleItem)) (specifier : String) (site : Site)
    (run : Run) : load s expand specifier site run =
      match Assoc.get? specifier run.modules with
      | some record => .ok record run
      | none =>
        if specifier ∈ run.loading then fail (.circularImport (importChain run.loading specifier)) site run
        else match s.load specifier with
          | .error reason => fail (.moduleNotFound specifier reason) site { run with asked := specifier :: run.asked }
          | .ok text =>
            compile expand specifier text s.config.defaultDialect { run with asked := specifier :: run.asked } := by
  have hload : load s expand specifier site run = (match Assoc.get? specifier run.modules with
      | some record => pure record
      | none =>
        if run.loading.contains specifier then fail (.circularImport (importChain run.loading specifier)) site
        else do
          set { run with asked := specifier :: run.asked }
          match s.load specifier with
          | .error reason => fail (.moduleNotFound specifier reason) site
          | .ok text => compile expand specifier text s.config.defaultDialect : Expand ModuleRecord) run := rfl
  rw [hload]
  cases Assoc.get? specifier run.modules with
  | some record => rfl
  | none =>
    by_cases hmem : specifier ∈ run.loading
    · simp only [List.contains_iff_mem, hmem, if_true]
    · simp only [List.contains_iff_mem, hmem, if_false]
      cases s.load specifier with
      | error reason => rfl
      | ok text => rfl

/-- Loading a module as a composition. -/
theorem load_eq_bind (s : Setup) (expand : Home → List Token → Expand (List ModuleItem)) (specifier : String)
    (site : Site) : load s expand specifier site = (do
      let run ← get
      match Assoc.get? specifier run.modules with
      | some record => return record
      | none =>
        if specifier ∈ run.loading then fail (.circularImport (importChain run.loading specifier)) site
        else do
          ask specifier
          match s.load specifier with
          | .error reason => fail (.moduleNotFound specifier reason) site
          | .ok text => compile expand specifier text s.config.defaultDialect) := by
  funext run
  rw [load_eq]
  simp only [Bind.bind, EStateM.bind, get_apply]
  cases Assoc.get? specifier run.modules with
  | some record => rfl
  | none =>
    dsimp only
    split
    · rfl
    · cases s.load specifier <;> rfl

theorem Gives.whileLoading {α : Type} {x : Expand α} {P : α → Prop} (hx : Gives x P) (specifier : String) :
    Gives (whileLoading specifier x) P := by
  intro run a run' h
  obtain ⟨_, h, _⟩ := whileLoading_eq_ok h
  exact hx _ _ _ h

end Expand

/-- The records that are loaded are kept under their specifiers. -/
def Passes.KeepsRecords (p : Passes) : Prop :=
  ∀ specifier site run record run', p.load specifier site run = .ok record run' → (specifier, record) ∈ run'.modules

/-- The expanded items of modules are completed. -/
def ItemsComplete (expand : Home → List Token → Expand (List ModuleItem)) : Prop :=
  ∀ home tokens, Expand.Gives (expand home tokens) fun items => Completed (items.flatMap ModuleItem.lambdas)

namespace Expand

variable {expand : Home → List Token → Expand (List ModuleItem)} {specifier text : String} {dialect : Dialect}
  {run run' : Run} {record : ModuleRecord}

/-- A module that is expanded is kept in the end, with the record of its items. -/
theorem compile_eq_ok
        (h : compile expand specifier text dialect run = .ok record run') : ∃ file dialect items before,
      ModuleRecord.ofItems before.store specifier file dialect items = .ok record ∧
      keep specifier record before = .ok () run' := by
  rw [compile_eq] at h
  obtain ⟨_, _, _, h⟩ := bind_eq_ok h
  obtain ⟨file, _, _, h⟩ := bind_eq_ok h
  obtain ⟨⟨dialect', tokens⟩, _, _, h⟩ := bind_eq_ok h
  obtain ⟨_, _, _, h⟩ := bind_eq_ok h
  obtain ⟨items, before, _, h⟩ := bind_eq_ok h
  obtain ⟨_, _, hget, h⟩ := bind_eq_ok h
  cases hget
  cases hrecord : ModuleRecord.ofItems before.store specifier file dialect' items with
  | error ident =>
    rw [hrecord] at h
    cases h
  | ok record' =>
    rw [hrecord] at h
    cases h
    exact ⟨file, dialect', items, before, hrecord, rfl⟩

theorem get?_of_compile
        (h : compile expand specifier text dialect run = .ok record run') : Assoc.get? specifier run'.modules = some record := by
  obtain ⟨_, _, _, before, _, hkeep⟩ := compile_eq_ok h
  cases hkeep
  simp [Assoc.get?_insert]

theorem compile_keeps
        (h : compile expand specifier text dialect run = .ok record run') : (specifier, record) ∈ run'.modules :=
  Assoc.mem_of_get? (get?_of_compile h)

theorem load_keeps {s : Setup} {site : Site}
    (h : load s expand specifier site run = .ok record run') : (specifier, record) ∈ run'.modules := by
  rw [load_eq] at h
  split at h
  · next record hrecord =>
    cases h
    exact Assoc.mem_of_get? hrecord
  · split at h
    · cases h
    · split at h
      · cases h
      · exact compile_keeps h

end Expand

theorem passes_keepsRecords (s : Setup) (limit : Nat) (home : Home) : (passes s limit home).KeepsRecords := by
  intro specifier site run record run' h
  cases limit with
  | zero => cases h
  | succ limit => exact Expand.load_keeps h

/-- The two setups load the same texts and go equally deep. -/
structure Setup.Akin (s s' : Setup) : Prop where
  load : s'.load = s.load
  limit : s'.limit = s.limit
  defaultDialect : s'.config.defaultDialect = s.config.defaultDialect
  entryDialect : s'.config.entryDialect = s.config.entryDialect

theorem Setup.Akin.refl (s : Setup) : s.Akin s := ⟨rfl, rfl, rfl, rfl⟩

/-- A law of reading that also holds where modules are imported and kept. -/
structure ModuleLaw (s s' : Setup) extends Law s s' where
  covers (home : Home) : Covers home
  akin : s.Akin s'
  noted {α : Type} {x : Expand α} : x.Noted → Rel x x
  circular (chain : List String) (site : Site) :
    Rel (Expand.fail (α := ModuleRecord) (.circularImport chain) site) (Expand.fail (.circularImport chain) site)
  whileLoading {α : Type} {x x' : Expand α} (specifier : String) :
    Rel x x' → Rel (Expand.whileLoading specifier x) (Expand.whileLoading specifier x')
  keep {record : ModuleRecord} : Completed record.lambdas →
    Rel (Expand.keep record.specifier record) (Expand.keep record.specifier record)
  processImport (imported : Import) {p p' : Passes} :
    (∀ specifier site, Rel (p.load specifier site) (p'.load specifier site)) → p.KeepsRecords →
      Rel (Expand.processImport s p imported) (Expand.processImport s' p' imported)

namespace ModuleLaw

open Parse Expand

variable {s s' : Setup} {M : ModuleLaw s s'} {p p' : Passes}

/-- The law holds between ways to load modules, whose records are kept. -/
structure Loads (M : ModuleLaw s s') (p p' : Passes) : Prop where
  rel : ∀ specifier site, M.Rel (p.load specifier site) (p'.load specifier site)
  keeps : p.KeepsRecords

theorem expandItems (hp : M.Ties p p') (hl : M.Loads p p') (home : Home) (tokens : List Token) :
    M.Rel (Expand.moduleItems s home p tokens) (Expand.moduleItems s' home p' tokens) :=
  Law.expandItems (M.covers home) hp (fun imported => M.processImport imported hl.rel hl.keeps) tokens

variable {expand expand' : Home → List Token → Expand (List ModuleItem)}

theorem compile (hexpand : ∀ home tokens, M.Rel (expand home tokens) (expand' home tokens))
    (hc : ItemsComplete expand) (hc' : ItemsComplete expand') (specifier text : String) (dialect : Dialect) :
    M.Rel (compile expand specifier text dialect) (Expand.compile expand' specifier text dialect) := by
  rw [compile_eq, compile_eq]
  refine .bind (M.noted (noted_note _)) fun _ => .bind (M.noted (noted_addSource _ _)) fun file => ?_
  refine .bind (M.inert (inert_readModule _ _ _ _)) fun r => .bind (M.inert (inert_freshScope fun _ => ⟨rfl, rfl⟩)) fun scope => ?_
  refine M.bind_rel (M.whileLoading specifier (hexpand _ _)) fun items hitems => .bind (M.inert .get) fun run => ?_
  have hcompleted := hitems.elim ((hc _ _).whileLoading specifier).mayGive ((hc' _ _).whileLoading specifier).mayGive
  split
  · exact M.inert (.fail rfl)
  · next record hrecord =>
    refine .bind ?_ fun _ => .pure
    rw [← ModuleRecord.specifier_ofItems hrecord]
    refine M.keep ?_
    rw [ModuleRecord.lambdas, (ModuleRecord.ofItems_ok hrecord).2]
    exact hcompleted

theorem load (hexpand : ∀ home tokens, M.Rel (expand home tokens) (expand' home tokens))
    (hc : ItemsComplete expand) (hc' : ItemsComplete expand') (specifier : String) (site : Site) :
    M.Rel (load s expand specifier site) (Expand.load s' expand' specifier site) := by
  rw [load_eq_bind, load_eq_bind, M.akin.load, M.akin.defaultDialect]
  refine .bind (M.inert .get) fun run => ?_
  split
  · exact .pure
  · refine .ite (M.circular _ _) (.bind (M.noted (noted_ask _)) fun _ => ?_)
    split
    · exact M.inert (.fail rfl)
    · exact compile hexpand hc hc' specifier _ _

/-- The law holds between ways to load modules, however deep readers may go. -/
theorem loads_passes (M : ModuleLaw s s') (limit : Nat) (home : Home) :
    M.Loads (passes s limit home) (passes s' limit home) := by
  induction limit generalizing home with
  | zero => exact ⟨fun _ _ => M.exhausted, passes_keepsRecords s 0 home⟩
  | succ limit ih =>
    refine ⟨fun specifier site => ?_, passes_keepsRecords s _ home⟩
    have hexpand : ∀ home tokens, M.Rel (Expand.moduleItems s home (passes s limit home) tokens)
        (Expand.moduleItems s' home (passes s' limit home) tokens) := fun home tokens =>
      expandItems (M.ties_passes limit (M.covers home)) (ih home) home tokens
    have hcomplete : ∀ s : Setup, ItemsComplete fun home tokens =>
        Expand.moduleItems s home (passes s limit home) tokens := fun s home tokens =>
      Expand.completed_moduleItems s home (passes_sound s limit home) tokens
    exact load hexpand (hcomplete s) (hcomplete s') specifier site

theorem completed_items (s : Setup) : ItemsComplete (Expand.items s) :=
  fun home tokens => Expand.completed_moduleItems s home (passes_sound s s.limit home) tokens

theorem items (M : ModuleLaw s s') (home : Home) (tokens : List Token) :
    M.Rel (items s home tokens) (Expand.items s' home tokens) := by
  unfold Expand.items
  rw [M.akin.limit]
  exact expandItems (M.ties_passes s.limit (M.covers home)) (M.loads_passes s.limit home) home tokens

theorem entry (M : ModuleLaw s s') (text : String) : M.Rel (entry s text) (Expand.entry s' text) := by
  unfold Expand.entry
  rw [M.akin.entryDialect]
  exact compile M.items (completed_items s) (completed_items s') _ text _

theorem loadItems (M : ModuleLaw s s') (specifier : String) (site : Site) :
    M.Rel (Expand.load s (Expand.items s) specifier site) (Expand.load s' (Expand.items s') specifier site) :=
  load M.items (completed_items s) (completed_items s') specifier site

end ModuleLaw

end Hygiene
