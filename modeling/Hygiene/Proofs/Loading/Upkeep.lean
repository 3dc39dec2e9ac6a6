import Hygiene.Proofs.Expand.Imports
import Hygiene.Proofs.Expand.Meanings
import Hygiene.Proofs.Loading.Stack
import Hygiene.Proofs.Location.Modules

/-!
# What is kept up while modules are loaded

An invariant of runs that speaks of modules, of their instances and of what bindings mean has to be shown in two places
only: where the names of an import are bound, and where the record of a module is kept. `Upkeep` says what is to be
shown; then it holds at the end of every operation on a program. With it the modules are kept in order and everything is
within the registered texts, or the computation stops. There is one lemma for each function that takes part in an
import, and the induction is on the depth of the readers.
-/

namespace Hygiene

open List

/-! ### Reading -/

/-- What a run has made of modules. -/
structure ModuleState where
  modules : List (String × ModuleRecord)
  instances : List ((String × Phase) × Instance)
  activities : List Activity
  snapshots : List Snapshot

/-- What a run has made of modules so far. -/
def Run.moduleState (run : Run) : ModuleState := ⟨run.modules, run.instances, run.activities, run.snapshots⟩

/-- The second run has read on from the first: bindings stay with their meanings, and nothing was done with modules. -/
structure Run.Reads (run run' : Run) : Prop where
  grows : run.Grows run'
  moduleState : run'.moduleState = run.moduleState

namespace Run.Reads

variable {run run' run'' : Run}

/-- What is taken down about loading makes no difference. -/
theorem of_same (hstore : run'.store = run.store) (hregistry : run'.registry = run.registry)
    (h : run'.moduleState = run.moduleState) : run.Reads run' :=
  ⟨.of_registry (hstore ▸ prefix_refl _) (by rw [hregistry]), h⟩

/-- So does a change of the stack of modules. -/
theorem loading (run : Run) (loading : List String) : run.Reads { run with loading } := .of_same rfl rfl rfl

theorem modules (h : run.Reads run') : run'.modules = run.modules := congrArg ModuleState.modules h.moduleState

end Run.Reads

namespace Change

/-- The change that does nothing with modules. -/
abbrev apart : Change where
  Rel run run' := run'.moduleState = run.moduleState
  refl _ := rfl
  trans h h' := h'.trans h

theorem apart_ofReading : apart.OfReading where
  inert := { rel := fun h => by rw [h.same]; rfl }
  code := {
    rel := fun h => by
      obtain ⟨hinstances, hactivities⟩ := h.apart rfl
      rw [h.same]
      simp only [Run.moduleState, hinstances, hactivities] }
  opening _ _ := rfl
  closing _ _ _ := rfl

end Change

namespace Expand

variable {α β : Type} {x : Expand α}

/-- However the computation ends, nothing was done with modules. -/
def Apart (x : Expand α) : Prop := Makes .apart x

theorem Apart.inert (hx : Inert x) : Apart x := .mono Change.apart_ofReading.inert hx

/-- However the computation ends, the run has read on. -/
structure Reads (x : Expand α) : Prop where
  grows : Grows x
  apart : Apart x
  aside : Aside x

theorem Reads.yields (hx : Reads x) (run : Run) : Yields run x (fun _ run' => run.Reads run' ∧ run'.loads = run.loads)
    fun e run' => run.Reads run' ∧ run'.loads = run.loads ∧ e.fault.cycle? = none :=
  .intro (fun _ _ h => ⟨⟨hx.grows.of_ok h, hx.apart.of_ok h⟩, hx.aside.of_ok h⟩) fun _ _ h =>
    ⟨⟨((hx.grows run).error h).1, ((hx.apart run).error h).1⟩, (hx.aside run).error h⟩

theorem Reads.bind {f : α → Expand β} (hx : Reads x) (hf : ∀ a, x.MayGive a → Reads (f a)) : Reads (x >>= f) where
  grows := .bind_mayGive hx.grows fun a ha => (hf a ha).grows
  apart := .bind_mayGive hx.apart fun a ha => (hf a ha).apart
  aside := .bind_mayGive hx.aside fun a ha => (hf a ha).aside

theorem Reads.inert (hx : Inert x) : Reads x := ⟨.inert hx, .inert hx, .inert hx⟩

theorem Reads.mapM {f : α → Expand β} {list : List α} (h : ∀ a, Reads (f a)) : Reads (list.mapM f) :=
  ⟨.mapM fun a => (h a).grows, .mapM fun a => (h a).apart, .mapM fun a => (h a).aside⟩

end Expand

/-- Reading terms only reads on. -/
def readingLaw (s : Setup) : Law s s where
  Rel x _ := Expand.Reads x
  bind_rel hx hf := .bind hx fun a ha => hf a (Or.inl ha)
  inert hx := .inert hx
  exhausted := ⟨.exhausted trivial, .exhausted trivial, .exhausted⟩
  invokeHere stream := ⟨Parse.grows_invokeHere s stream, Parse.makes_invokeHere Change.apart_ofReading s stream,
    Parse.aside_invokeHere s stream⟩
  declared {home} _ sweet binding recursive _ _ hx hc stream :=
    ⟨Parse.grows_declared s home binding recursive (fun stream => (hx stream).grows) stream,
      (Change.law Change.apart_ofReading s (fun _ => True) fun _ _ _ _ _ _ _ => rfl).declared trivial sweet binding recursive
        (fun stream => (hx stream).apart) hc stream,
      (asideLaw s).declared trivial sweet binding recursive (fun stream => (hx stream).aside) hc stream⟩

/-! ### Loading modules -/

namespace Loads

/-- No module was asked for or begun twice. -/
structure Once (l : Loads) : Prop where
  asked : l.asked.Nodup
  begun : l.begun.Nodup

/-- A computation stopped: no module was asked for or begun twice, and a circular import is one. -/
structure Stopped (l : Loads) (fault : ExpandFault) : Prop where
  once : l.Once
  cycle : ∀ chain, fault.cycle? = some chain → ∃ last, ImportRequest.Closes last l.requests chain

theorem Ordered.once {l : Loads} (h : l.Ordered) : l.Once := ⟨h.asked_nodup, h.begun_nodup⟩

theorem Once.stopped {l : Loads} (h : l.Once) {fault : ExpandFault} (hf : fault.cycle? = none) : l.Stopped fault :=
  ⟨h, fun chain hchain => by rw [hf] at hchain; cases hchain⟩

end Loads

/-- Nothing has been done about modules in a run that has not begun. -/
theorem Run.ordered_empty : (Run.loads {}).Ordered where
  known_nodup := nodup_nil
  asked_nodup := nodup_nil
  asked_known := nil_subset _
  begun_nodup := nodup_nil
  begun_known := nil_subset _
  importsFirst := by
    intro before specifier record after heq
    cases before <;> cases heq
  linked := by
    intro inner outer around hsuffix
    cases suffix_nil.1 hsuffix

/-- The second run comes later: bindings stay with their meanings, and the modules of the first come first. -/
structure Run.Later (run run' : Run) : Prop where
  grows : run.Grows run'
  modules : run.modules <+: run'.modules

theorem Run.Reads.later {run run' : Run} (h : run.Reads run') : run.Later run' :=
  ⟨h.grows, h.modules ▸ prefix_refl _⟩

theorem Run.Later.trans {run run' run'' : Run} (h : run.Later run') (h' : run'.Later run'') : run.Later run'' :=
  ⟨h.grows.trans h'.grows, h.modules.trans h'.modules⟩

/-- A run in which an import can be carried out. -/
structure Run.Ready (run : Run) : Prop where
  sound : run.Sound
  settled : run.Settled
  ordered : run.loads.Ordered
  placed : run.Placed

/-- The run that keeps one more record. -/
def Run.keeping (run : Run) (record : ModuleRecord) : Run := { run with
  modules := Assoc.insert record.specifier record run.modules
  snapshots := ⟨record.specifier, run.store, run.registry⟩ :: run.snapshots }

theorem Run.Within.keeping {sources : Sources} {run : Run} {record : ModuleRecord} (h : run.Within sources)
    (hrecord : record.Within sources) : (run.keeping record).Within sources :=
  { h with modules := fun entry he => (Assoc.mem_insert he).elim (fun heq => by rw [heq]; exact hrecord) (h.modules entry) }

/-- An invariant that is kept up while modules are loaded. -/
structure Upkeep (s : Setup) where
  Holds : Run → Prop
  /-- What is left of the invariant when a computation fails. -/
  Failed : Run → Prop
  /-- What is known of an import that was carried out. -/
  Known : Import → Run → Prop
  failed {run : Run} : Holds run → Failed run
  reads {run run' : Run} : run.Reads run' → Holds run → Holds run'
  fails {run run' : Run} : run.Reads run' → Failed run → Failed run'
  known {i : Import} {run run' : Run} : run.Later run' → Known i run → Known i run'
  imports {run : Run} {record : ModuleRecord} (imported : Import) : run.Ready →
    (imported.specifier, record) ∈ run.modules → (∀ t ∈ imported.bindings, t.isIdent = true) → Holds run →
      Expand.Yields run (imported.wanted.forM (Expand.bindImport s record imported))
        (fun _ run' => Holds run' ∧ Known imported run') fun _ => Failed
  keep {run : Run} {record : ModuleRecord} : run.Sound → run.Settled → record.specifier ∉ Assoc.keys run.modules →
    (∃ file dialect, ModuleRecord.ofItems run.store record.specifier file dialect record.items = .ok record) →
    (∀ i, .importItem i ∈ record.items → Known i run) → Holds run → Holds (run.keeping record)

/-- All that is known of the readers of terms. -/
structure Passes.Fit (s : Setup) (p : Passes) : Prop where
  sound : p.Sound
  reading : (readingLaw s).Ties p p
  located : ∀ sources, (locating sources).Ties p p
  keeps : p.KeepsRecords

theorem passes_fit (s : Setup) (limit : Nat) (home : Home) : (passes s limit home).Fit s where
  sound := passes_sound s limit home
  reading := (readingLaw s).ties_passes limit trivial
  located := locating_passes s limit home
  keeps := passes_keepsRecords s limit home

namespace Upkeep

open Expand (Located Yields)
open Parse (yields_bind yields_bind_ok yields_ite yields_lift yields_map yields_pure)

variable {s : Setup} (U : Upkeep s) {p : Passes} {run run' run'' : Run} {stream : Stream} (home : Home)
  {expand : Home → List Token → Expand (List ModuleItem)} {passesOf : Home → Passes} {α : Type} {items items' : List ModuleItem}

/-- What a computation leaves that only reads. -/
structure Goes (run run' : Run) : Prop where
  reads : run.Reads run'
  loads : run'.loads = run.loads
  within : run'.Within run'.sources
  texts : run'.sources = run.sources
  holds : U.Holds run'

/-- What a computation leaves that succeeds: the modules are in order, those that were finished before come first, so do
the texts, everything is within them, and the invariant holds. -/
structure Leaves (run run' : Run) : Prop where
  ordered : run'.loads.Ordered
  placed : run'.Placed
  later : run.Later run'
  texts : run.sources.Extends run'.sources
  holds : U.Holds run'

/-- What is left when a computation fails. -/
structure Stops (e : ExpandError) (run : Run) : Prop where
  failed : U.Failed run
  stopped : run.loads.Stopped e.fault
  within : run.Within run.sources
  error : e.Within run.sources

/-- The import has been carried out: the module is finished. -/
structure Done (run : Run) (i : Import) : Prop where
  finished : i.specifier ∈ Assoc.keys run.modules
  known : U.Known i run

/-- The items are within the texts, and the imports among them have been carried out. -/
structure Has (run : Run) (items : List ModuleItem) : Prop where
  within : ∀ item ∈ items, item.Within run.sources
  done : ∀ i, .importItem i ∈ items → U.Done run i

variable {U}

theorem Leaves.refl (ho : run.loads.Ordered) (hp : run.Placed) (h : U.Holds run) : U.Leaves run run :=
  ⟨ho, hp, (Run.Reads.of_same rfl rfl rfl).later, .refl _, h⟩

theorem Leaves.trans (h : U.Leaves run run') (h' : U.Leaves run' run'') : U.Leaves run run'' :=
  ⟨h'.ordered, h'.placed, h.later.trans h'.later, h.texts.trans h'.texts, h'.holds⟩

theorem Done.later {i : Import} (hi : U.Done run i) (h : run.Later run') : U.Done run' i :=
  ⟨map_subset _ h.modules.subset hi.finished, U.known h hi.known⟩

theorem Has.nil : U.Has run [] := ⟨nofun, nofun⟩

theorem Has.later (hi : U.Has run items) (h : U.Leaves run run') : U.Has run' items :=
  ⟨fun item hitem => (hi.within item hitem).mono h.texts, fun i hmem => (hi.done i hmem).later h.later⟩

theorem Has.append (h : U.Has run items) (h' : U.Has run items') : U.Has run (items ++ items') :=
  ⟨forall_mem_append.2 ⟨h.within, h'.within⟩, fun i hi => (mem_append.1 hi).elim (h.done i) (h'.done i)⟩

/-- An item that is not an import. -/
theorem Has.singleton {item : ModuleItem} (h : item.Within run.sources) (hi : ∀ i, item ≠ .importItem i) : U.Has run [item] :=
  ⟨forall_mem_singleton.2 h, fun i hmem => (hi i (mem_singleton.1 hmem).symm).elim⟩

variable (U)

/-- Loading a module that was asked for keeps up the invariant. -/
def Loads (p : Passes) : Prop := ∀ specifier (site : Site) (run : Run), site.Within run.sources → run.Ready →
  run.loads.Requested specifier → U.Holds run → Yields run (p.load specifier site) (fun _ => U.Leaves run) U.Stops

/-- What only reads goes on with the same modules and the same texts. -/
theorem yields_reads {x : Expand α} {P : α → Prop} (hx : x.Reads) (hlocated : Located run.sources x P) (ho : run.loads.Once)
    (hwithin : run.Within run.sources) (h : U.Holds run) :
    Yields run x (fun a run' => x run = .ok a run' ∧ U.Goes run run' ∧ P a) U.Stops := by
  refine .intro (fun a run' heq => ?_) fun e run' heq => ?_
  · obtain ⟨hreads, hloads⟩ := (hx.yields run).ok heq
    obtain ⟨hwithin', htexts, ha⟩ := (hlocated.yields hwithin).ok heq
    exact ⟨heq, ⟨hreads, hloads, hwithin', htexts, U.reads hreads h⟩, ha⟩
  · obtain ⟨hreads, hloads, hfault⟩ := (hx.yields run).error heq
    obtain ⟨hwithin', he⟩ := (hlocated.yields hwithin).error heq
    exact ⟨U.failed (U.reads hreads h), hloads ▸ ho.stopped hfault, hwithin', he⟩

variable {U} in
/-- So do the modules stay in order. -/
theorem Leaves.reads (h : U.Leaves run run') {x : Expand α} {P : α → Prop} (hx : x.Reads) (hlocated : Located run'.sources x P) :
    Yields run' x (fun a run'' => x run' = .ok a run'' ∧ U.Leaves run run'' ∧ run''.sources = run'.sources ∧ P a) U.Stops := by
  refine (U.yields_reads hx hlocated h.ordered.once h.placed.within h.holds).imp ?_ fun _ _ hs => hs
  rintro a run'' ⟨heq, hgoes, ha⟩
  exact ⟨heq, ⟨hgoes.loads ▸ h.ordered, h.placed.aside hgoes.within hgoes.texts hgoes.loads,
    h.later.trans hgoes.reads.later, hgoes.texts ▸ h.texts, hgoes.holds⟩, hgoes.texts, ha⟩

/-- An import that is carried out keeps what holds and is done. -/
theorem processImport (hp : p.Fit s) (hl : U.Loads p) {imported imported' : Import} (hr : run.Ready)
    (hident : ∀ t ∈ imported.bindings, t.isIdent = true) (himported : imported.Alike (.within run.sources) imported')
    (h : U.Holds run) : Yields run (Expand.processImport s p imported)
      (fun _ run' => U.Leaves run run' ∧ U.Done run' imported) U.Stops := by
  let run₁ : Run := { run with requests := ⟨run.loading, imported.specifier⟩ :: run.requests }
  have hreads : run.Reads run₁ := .of_same rfl rfl rfl
  have hr₁ : run₁.Ready := {
    sound := hr.sound.of_sameHistory ⟨rfl, rfl, rfl, rfl, rfl⟩ hr.sound.heap
    settled := hr.settled
    ordered := { hr.ordered with
      linked := fun inner outer around hs => mem_cons_of_mem _ (hr.ordered.linked inner outer around hs) }
    placed := ⟨{ hr.placed.within with }, hr.placed.named⟩ }
  have hsite : imported.site.Within run.sources := himported.rec fun _ _ h => h.2
  refine .bind_ok (show _ = EStateM.Result.ok () run₁ from rfl) ?_
  refine .bind (hl _ _ run₁ hsite hr₁ (Or.inr rfl) (U.reads hreads h)).keep_eq ?_
  rintro record run₂ ⟨hload, h₂⟩
  have hafter := (hp.sound.load imported.specifier imported.site _ hr₁.sound hr₁.settled).ok hload
  have hmem := hp.keeps _ _ _ _ _ hload
  have hbinds := U.imports imported ⟨hafter.1, hafter.2.1.settled hr₁.settled, h₂.ordered, h₂.placed⟩ hmem hident h₂.holds
  have haside : Expand.Aside (imported.wanted.forM (Expand.bindImport s record imported)) :=
    .forM (Expand.aside_bindImport s record imported)
  have hlocated : Located run₂.sources (imported.wanted.forM (Expand.bindImport s record imported)) fun _ => True :=
    .forM fun wanted hw => Expand.located_bindImport s (h₂.placed.within.modules _ hmem) imported
      ((himported.wanted wanted hw).mono h₂.texts)
  refine .intro (fun _ run' hok => ?_) fun e run' herror => ?_
  · have hloads : run'.loads = run₂.loads := haside.of_ok hok
    have hmodules : run'.modules = run₂.modules := congrArg Hygiene.Loads.modules hloads
    obtain ⟨hwithin, htexts, -⟩ := (hlocated.yields h₂.placed.within).ok hok
    have hgrows : run₂.Grows run' := Expand.Makes.of_ok (.forM (Expand.grows_bindImport s record imported)) hok
    have hlater : run₂.Later run' := ⟨hgrows, hmodules ▸ prefix_refl _⟩
    exact ⟨⟨hloads ▸ h₂.ordered, h₂.placed.aside hwithin htexts hloads, hreads.later.trans (h₂.later.trans hlater),
      htexts ▸ h₂.texts, (hbinds.ok hok).1⟩, hmodules ▸ mem_map_of_mem hmem, (hbinds.ok hok).2⟩
  · obtain ⟨hloads, hfault⟩ := (haside run₂).error herror
    obtain ⟨hwithin, he⟩ := (hlocated.yields h₂.placed.within).error herror
    exact ⟨hbinds.error herror, hloads ▸ h₂.ordered.once.stopped hfault, hwithin, he⟩

theorem moduleItem (hp : p.Fit s) (hl : U.Loads p) (hr : run.Ready) (hk : Hygiene.Known True run.events stream.content)
    (hs : stream.Within run.sources) (h : U.Holds run) : Yields run (Parse.moduleItem s home p stream)
      (fun r run' => U.Leaves run run' ∧ U.Has run' r.1.toList ∧ r.2.Within run'.sources) U.Stops := by
  unfold Parse.moduleItem
  have hinvoke : Expand.Reads (Parse.invokeHere s stream) := (readingLaw s).invokeHere stream
  refine yields_bind ((Leaves.refl hr.ordered hr.placed h).reads hinvoke (Parse.located_invokeHere s stream hs)) ?_
  rintro invoked stream₁ run₁ ⟨hok, h₁, hsources₁, -, hs₁⟩
  rw [← hsources₁] at hs₁
  obtain ⟨hsound, hextends, hk₁⟩ := (Parse.sound_invokeHere s).of_ok hr.sound hr.settled hk hok
  refine yields_ite (fun _ => yields_pure ⟨h₁, .nil, hs₁⟩) fun _ => ?_
  refine yields_bind_ok rfl (yields_ite (fun _ => ?_) fun _ => ?_)
  · have himport : Expand.Reads (Parse.importDeclaration stream₁) := .inert (Parse.inert_importDeclaration stream₁)
    refine yields_bind (h₁.reads himport (Parse.located_importDeclaration stream₁ hs₁)) ?_
    rintro imported stream₂ run₂ ⟨hok₂, h₂, hsources₂, ⟨imported', himported⟩, hs₂⟩
    rw [← hsources₂] at himported hs₂
    have hsettled := hextends.settled hr.settled
    obtain ⟨hsound₂, hextends₂, _⟩ := Parse.sound_importDeclaration.of_ok hsound hsettled hk₁.right hok₂
    have hr₂ : run₂.Ready := ⟨hsound₂, hextends₂.settled hsettled, h₂.ordered, h₂.placed⟩
    refine yields_bind (P := fun r run' => r.2 = stream₂ ∧ U.Leaves run₂ run' ∧ U.Done run' imported)
      (yields_lift ((U.processImport hp hl hr₂ (Parse.isIdent_of_importDeclaration hok₂) himported h₂.holds).imp
        (fun _ _ h => ⟨rfl, h⟩) fun _ _ hf => hf)) ?_
    rintro _ _ run₃ ⟨rfl, h₃, hdone⟩
    have hitem : (ModuleItem.importItem imported).Within run₂.sources := ⟨_, .importItem himported⟩
    refine yields_pure ⟨h₂.trans h₃, ⟨forall_mem_singleton.2 (hitem.mono h₃.texts), fun i hi => ?_⟩, hs₂.mono h₃.texts⟩
    obtain rfl : i = imported := by simpa using hi
    exact hdone
  refine yields_bind_ok rfl (yields_ite (fun _ => ?_) fun _ => ?_)
  · have hexport : Expand.Reads (Parse.exportItem s home p stream₁) := Law.exportItem trivial hp.reading stream₁
    refine yields_map ((h₁.reads hexport (Parse.located_exportItem s home (hp.located _) stream₁ hs₁)).imp ?_ fun _ _ hf => hf)
    rintro ⟨item, stream₂⟩ run₂ ⟨hok₂, h₂, hsources₂, hitem, hs₂⟩
    rw [← hsources₂] at hitem hs₂
    exact ⟨h₂, .singleton hitem fun i => Parse.ne_importItem_of_exportItem i hok₂, hs₂⟩
  · refine yields_bind (h₁.reads (hp.reading.statement stream₁) (Parse.Located.of_reads (hp.located _).statement stream₁ hs₁)) ?_
    rintro statement stream₂ run₂ ⟨_, h₂, hsources₂, ⟨_, hstatement⟩, hs₂⟩
    rw [← hsources₂] at hstatement hs₂
    refine yields_pure ⟨h₂, ?_, hs₂⟩
    cases hstatement with
    | none => exact .nil
    | some h => exact .singleton ⟨_, .statement h⟩ nofun

theorem moduleItems (hp : p.Fit s) (hl : U.Loads p) (limit : Nat) (hr : run.Ready)
    (hk : Hygiene.Known True run.events stream.content) (hs : stream.Within run.sources) (h : U.Holds run) :
    Yields run (Parse.moduleItems s home p limit stream) (fun r run' => U.Leaves run run' ∧ U.Has run' r.1) U.Stops := by
  induction limit generalizing run stream with
  | zero => exact ⟨U.failed h, hr.ordered.once.stopped rfl, hr.placed.within, nofun⟩
  | succ limit ih =>
    unfold Parse.moduleItems
    refine yields_bind_ok rfl ?_
    refine yields_ite (fun _ => yields_pure ⟨.refl hr.ordered hr.placed h, .nil⟩) fun _ => ?_
    refine yields_bind (U.moduleItem home hp hl hr hk hs h).keep_eq ?_
    rintro item stream₁ run₁ ⟨hok, h₁, hitem, hs₁⟩
    obtain ⟨hsound, hextends, hk₁⟩ := (Parse.sound_moduleItem s home hp.sound).of_ok hr.sound hr.settled hk hok
    have hrest := ih ⟨hsound, hextends.settled hr.settled, h₁.ordered, h₁.placed⟩ hk₁.right hs₁ h₁.holds
    cases item with
    | none => exact hrest.imp (fun _ _ h₂ => ⟨h₁.trans h₂.1, h₂.2⟩) fun _ _ hf => hf
    | some item =>
      refine yields_bind hrest ?_
      rintro items stream₂ run₂ ⟨h₂, hitems⟩
      exact yields_pure ⟨h₁.trans h₂, (hitem.later h₂).append hitems⟩

/-- Expanding the tokens of a module keeps up the invariant. -/
def Expands (expand : Home → List Token → Expand (List ModuleItem)) : Prop := ∀ home tokens (run : Run), run.Ready →
  Hygiene.Known True run.events (Content.ofTokens tokens) → (∀ t ∈ tokens, t.Within run.sources) → U.Holds run →
    Yields run (expand home tokens) (fun items run' => U.Leaves run run' ∧ U.Has run' items) U.Stops

theorem expandItems (hp : ∀ home, Passes.Fit s (passesOf home)) (hl : ∀ home, U.Loads (passesOf home)) :
    U.Expands fun home tokens => Expand.moduleItems s home (passesOf home) tokens := by
  intro home tokens run hr hk ht h
  have hk : Hygiene.Known True run.events (Stream.content { after := tokens }) := hk
  refine .bind (U.moduleItems home (hp home) (hl home) _ hr hk ⟨nofun, ht⟩ h) ?_
  rintro ⟨items, stream⟩ run₁ ⟨h₁, hitems⟩
  have hcomplete : Expand.Reads (items.mapM (·.complete (passesOf home).body)) :=
    .mapM (Law.completeItem (hp home).reading.body)
  have hlocated : Located run₁.sources (items.mapM (·.complete (passesOf home).body)) fun items =>
      ∀ item ∈ items, item.Within run₁.sources :=
    .mapM fun item hitem => item.located_complete ((hp home).located _) (hitems.within item hitem)
  refine ((Leaves.refl h₁.ordered h₁.placed h₁.holds).reads hcomplete hlocated).imp ?_ fun _ _ hf => hf
  rintro completed run₂ ⟨hok, h₂, hsources₂, hwithin⟩
  exact ⟨h₁.trans h₂, hsources₂ ▸ hwithin, fun i hi => (hitems.done i (ModuleItem.mem_of_completeAll hok hi)).later h₂.later⟩

/-- A module that is not known yet is expanded and kept, as the last one, with its text. -/
theorem compile (hsound : Expand.ItemsSound expand)
    (hrestores : ∀ home tokens, Expand.Restores (expand home tokens)) (hexpand : U.Expands expand) {specifier : String}
    (hr : run.Sound) (hs : run.Settled) (hplaced : run.Placed) (hordered : (run.loads.enter specifier).Ordered)
    (h : U.Holds run) (text : String) (dialect : Dialect) : Yields run (Expand.compile expand specifier text dialect)
      (fun record run' => U.Leaves run run' ∧ (Assoc.keys run'.modules).getLast? = some specifier ∧
        (specifier, record) ∈ run'.modules ∧ ∃ t, run'.sources.text? record.file = some t ∧ t.text = text) U.Stops := by
  have hnew : specifier ∉ run.loads.known :=
    (nodup_cons.1 (Hygiene.Loads.known_enter.nodup_iff.1 hordered.known_nodup)).1
  obtain ⟨t, ht, htext⟩ : ∃ t, (run.sources.add specifier text).2.text? (run.sources.add specifier text).1 = some t ∧
      t.text = text := by
    refine Sources.text?_add fun hmem => ?_
    obtain ⟨t, ht, rfl⟩ := mem_map.1 hmem
    exact hnew (hplaced.named t ht)
  have hext := Sources.extends_add run.sources specifier text
  rw [Expand.compile_eq]
  let run₂ : Run := { run with
    log := expandingMessage specifier :: run.log
    sources := (run.sources.add specifier text).2 }
  have hreads₂ : run.Reads run₂ := .of_same rfl rfl rfl
  have hwithin₂ : run₂.Within run₂.sources := { hplaced.within.mono hext with }
  have hloads₂ : run₂.loads = { run.loads with begun := expandingMessage specifier :: run.loads.begun } :=
    run.loads_expanding specifier
  have honce : run₂.loads.Once := hloads₂ ▸ ⟨hordered.asked_nodup, hordered.begun_nodup⟩
  have hr₂ : run₂.Sound := hr.of_sameHistory ⟨rfl, rfl, rfl, rfl, rfl⟩ hr.heap
  refine .bind_ok rfl (.bind_ok (show _ = EStateM.Result.ok _ run₂ from rfl) ?_)
  refine .bind (U.yields_reads (.inert (Expand.inert_readModule specifier text _ dialect))
    (Expand.located_readModule specifier ht htext dialect) honce hwithin₂ (U.reads hreads₂ h)) ?_
  rintro ⟨dialect, tokens⟩ run₃ ⟨hread, h₃, htokens⟩
  obtain ⟨rfl, hstands⟩ := (Expand.readModule_ends hr₂ specifier text _ _).ok hread
  refine .bind (U.yields_reads (.inert (Expand.inert_freshScope fun _ => ⟨rfl, rfl⟩)) (Expand.located_freshScope _) honce
    h₃.within h₃.holds) ?_
  rintro scope run₄ ⟨hscope, h₄, -⟩
  obtain ⟨hr₄, he₄, hevents⟩ := (Expand.freshScope_ends hr₂ (.text _ tokens) (fun _ => rfl) (fun _ _ => rfl)
    (fun _ => rfl) fun _ => hstands).ok hscope
  have hsources₄ : run₄.sources = run₂.sources := h₄.texts
  have hloads₅ : Run.loads { run₄ with loading := specifier :: run₄.loading } = run.loads.enter specifier :=
    congrArg (fun l : Hygiene.Loads => { l with loading := specifier :: l.loading }) (h₄.loads.trans hloads₂)
  have hready : Run.Ready { run₄ with loading := specifier :: run₄.loading } := {
    sound := hr₄.of_sameHistory ⟨rfl, rfl, rfl, rfl, rfl⟩ hr₄.heap
    settled := he₄.settled hs
    ordered := hloads₅ ▸ hordered
    placed := by
      refine ⟨{ h₄.within with }, fun t ht => ?_⟩
      rw [hloads₅]
      refine Hygiene.Loads.known_enter.mem_iff.2 (mem_cons.2 ?_)
      exact (Sources.eq_or_mem_of_mem_add (hsources₄ ▸ ht)).imp_right (hplaced.named t) }
  have htokens : ∀ t ∈ Token.wrap scope tokens, t.Within run₄.sources := hsources₄ ▸ Token.within_wrap htokens scope
  refine .bind (P := fun items run' => ∃ run₅ : Run, run' = { run₅ with loading := run₅.loading.tail } ∧
    run₅.loading = specifier :: run'.loading ∧ U.Leaves { run₄ with loading := specifier :: run₄.loading } run₅ ∧
    U.Has run₅ items ∧ run₅.Sound ∧ run₅.Settled) (.whileLoading ?_) ?_
  · refine (hexpand _ _ _ hready (Expand.known_wrap hevents) htokens (U.reads (.loading run₄ _) h₄.holds)).keep_eq.imp ?_
      fun e run' hf => ⟨U.fails (.loading run' _) hf.failed, ⟨⟨hf.stopped.once.asked, hf.stopped.once.begun⟩,
        hf.stopped.cycle⟩, { hf.within with }, hf.error⟩
    rintro items run₅ ⟨hok, h₅, hitems⟩
    have hstack : run₅.loading = _ := (hrestores ⟨specifier, _, dialect⟩ (Token.wrap scope tokens)).of_ok hok
    obtain ⟨hr₅, he₅, _⟩ := (hsound _ _ _ hready.sound (fun _ => hready.settled) nofun (Expand.known_wrap hevents)).ok hok
    exact ⟨run₅, rfl, by rw [hstack]; rfl, h₅, hitems, hr₅, he₅.settled hready.settled⟩
  · rintro items _ ⟨run₅, rfl, hstack, h₅, hitems, hr₅, hs₅⟩
    have hreads₅ := Run.Reads.loading run₅ run₅.loading.tail
    have hwithin₅ : Run.Within run₅.sources { run₅ with loading := run₅.loading.tail } := { h₅.placed.within with }
    refine .get_bind ?_
    split
    · next ident hident =>
      have hsite : ident.site.Within run₅.sources := within_undeclaredExport hident hitems.within
      exact .fail ⟨U.failed (U.reads hreads₅ h₅.holds), ⟨⟨h₅.ordered.asked_nodup, h₅.ordered.begun_nodup⟩, nofun⟩, hwithin₅,
        hsite.error _⟩
    · next record hrecord =>
      have htexts : run₂.sources.Extends run₅.sources := hsources₄ ▸ h₅.texts
      have hfile : run₅.sources.text? record.file = some t := by
        rw [ModuleRecord.file_ofItems hrecord]
        exact htexts.text? ht
      obtain rfl := ModuleRecord.specifier_ofItems hrecord
      obtain rfl := (ModuleRecord.ofItems_ok hrecord).2
      obtain ⟨hfinished, hmodules, hknown⟩ := h₅.ordered.finish hstack fun i hi => (hitems.done i hi).finished
      have hmodules : Assoc.insert record.specifier record run₅.modules = run₅.modules ++ [(record.specifier, record)] :=
        hmodules
      have hnew₅ : record.specifier ∉ Assoc.keys run₅.modules := h₅.ordered.not_mem_keys
        (show _ ∈ run₅.loading from hstack ▸ mem_cons_self)
      have hwithin : record.Within run₅.sources := ⟨hitems.within, by rw [hfile, Option.isSome_some]⟩
      refine .of_ok rfl ⟨⟨hfinished, ⟨hwithin₅.keeping hwithin, fun t ht => ?_⟩, ?_, hext.trans htexts, ?_⟩,
        by simp [hmodules, Assoc.keys], by simp [hmodules], t, hfile, htext⟩
      · exact (congrArg (t.name ∈ ·) hknown).mpr (h₅.placed.named t ht)
      · have hlater := hreads₂.later.trans (h₃.reads.later.trans (h₄.reads.later.trans
          ((Run.Reads.loading run₄ _).later.trans h₅.later)))
        have hkept : run₅.modules <+: Assoc.insert record.specifier record run₅.modules := hmodules ▸ prefix_append _ _
        exact ⟨hlater.grows.trans (.of_registry (prefix_refl _) rfl), hlater.modules.trans hkept⟩
      · exact U.keep (hr₅.of_sameHistory ⟨rfl, rfl, rfl, rfl, rfl⟩ hr₅.heap) hs₅ hnew₅ ⟨_, _, hrecord⟩
          (fun i hi => U.known hreads₅.later (hitems.done i hi).known) (U.reads hreads₅ h₅.holds)

/-- A module that is asked for is finished in the end; if it is new, it is finished last. -/
theorem load (hsound : Expand.ItemsSound expand)
    (hrestores : ∀ home tokens, Expand.Restores (expand home tokens)) (hexpand : U.Expands expand) {specifier : String}
    (hr : run.Ready) (hrequest : run.loads.Requested specifier) (h : U.Holds run) {site : Site}
    (hsite : site.Within run.sources) : Yields run (Expand.load s expand specifier site) (fun record run' => U.Leaves run run' ∧
      (specifier ∉ Assoc.keys run.modules → (Assoc.keys run'.modules).getLast? = some specifier) ∧
      (specifier, record) ∈ run'.modules) U.Stops := by
  have hreads : run.Reads { run with asked := specifier :: run.asked } := .of_same rfl rfl rfl
  have hasked := U.reads hreads h
  have hplaced : Run.Placed { run with asked := specifier :: run.asked } := ⟨{ hr.placed.within with }, hr.placed.named⟩
  rw [Expand.load_eq_bind]
  refine .get_bind ?_
  split
  · next hget => exact .pure ⟨.refl hr.ordered hr.placed h, absurd (Assoc.mem_keys_of_get? hget), Assoc.mem_of_get? hget⟩
  · next hget =>
    refine .ite (fun hloading => .fail ⟨U.failed h, ⟨hr.ordered.once, fun chain hchain => ?_⟩, hr.placed.within, hsite.error _⟩)
      fun hloading => ?_
    · cases hchain
      exact ⟨_, hr.ordered.linked.closes hloading (hrequest.resolve_left fun hempty => by
        rw [show run.loading = [] from hempty] at hloading
        cases hloading)⟩
    have hnew : specifier ∉ run.loads.known := fun hmem =>
      (mem_append.1 hmem).elim (Assoc.not_mem_keys_of_get? hget) hloading
    have hnodup : (specifier :: run.asked).Nodup :=
      nodup_cons.2 ⟨fun hmem => hnew (hr.ordered.asked_known hmem), hr.ordered.asked_nodup⟩
    refine .bind_ok rfl ?_
    split
    · exact .fail ⟨U.failed hasked, ⟨⟨hnodup, hr.ordered.begun_nodup⟩, nofun⟩, hplaced.within, hsite.error _⟩
    · have hentered := hr.ordered.enter hnew hrequest hnodup (cons_subset_cons _ hr.ordered.asked_known)
      have hr' : Run.Sound { run with asked := specifier :: run.asked } :=
        hr.sound.of_sameHistory ⟨rfl, rfl, rfl, rfl, rfl⟩ hr.sound.heap
      refine (U.compile hsound hrestores hexpand hr' hr.settled hplaced hentered hasked _ _).imp ?_ fun _ _ hf => hf
      rintro record run' ⟨h', hlast, hmem, -⟩
      exact ⟨⟨h'.ordered, h'.placed, hreads.later.trans h'.later, h'.texts, h'.holds⟩, fun _ => hlast, hmem⟩

/-- Loading modules keeps up the invariant, however deep the readers of terms may go. -/
theorem loads_passes (limit : Nat) (home : Home) : U.Loads (passes s limit home) := by
  induction limit generalizing home with
  | zero => exact fun _ _ _ _ hr _ h => ⟨U.failed h, hr.ordered.once.stopped rfl, hr.placed.within, nofun⟩
  | succ limit ih =>
    intro specifier site run hsite hr hrequest h
    show Yields run (Expand.load s (fun home tokens => Expand.moduleItems s home (passes s limit home) tokens) specifier
      site) _ _
    refine (U.load (fun home tokens => ?_) (fun home tokens => ?_) ?_ hr hrequest h hsite).imp (fun _ _ h => h.1) fun _ _ hf => hf
    · exact Expand.sound_moduleItems s home (passes_sound s limit home) fun _ h => h
    · exact Expand.restores_moduleItems s limit home tokens
    · exact U.expandItems (passes_fit s limit) ih

theorem expands_items : U.Expands (Expand.items s) := U.expandItems (passes_fit s s.limit) (U.loads_passes s.limit)

/-- The invariant holds when the text of a program has been expanded, if it holds of the run that has not begun. -/
theorem entry (h : U.Holds {}) (text : String) : Yields {} (Expand.entry s text)
    (fun record run' => U.Leaves {} run' ∧ (Assoc.keys run'.modules).getLast? = some entrySpecifier ∧
      (entrySpecifier, record) ∈ run'.modules ∧ ∃ t, run'.sources.text? record.file = some t ∧ t.text = text) U.Stops := by
  refine U.compile (Expand.items_sound s) (Expand.restores_items s) U.expands_items Run.sound_empty
    Run.settled_empty Run.placed_new ?_ h text _
  exact Run.ordered_empty.enter nofun (Or.inl rfl) nodup_nil (nil_subset _)

/-- So does it when a module has been loaded into such a run. -/
theorem loadItems (h : U.Holds {}) (specifier : String) : Yields {} (Expand.load s (Expand.items s) specifier .unknown)
    (fun record run' => U.Leaves {} run' ∧ (Assoc.keys run'.modules).getLast? = some specifier ∧
      (specifier, record) ∈ run'.modules) U.Stops :=
  (U.load (Expand.items_sound s) (Expand.restores_items s) U.expands_items
    ⟨Run.sound_empty, Run.settled_empty, Run.ordered_empty, Run.placed_new⟩ (Or.inl rfl) h Site.within_unknown).imp
      (fun _ _ h => ⟨h.1, h.2.1 nofun, h.2.2⟩) fun _ _ hf => hf

/-- What is left of the invariant when an operation fails holds of every run that an operation on a program leaves, if it
holds of those that evaluations leave. -/
theorem final (h : U.Holds {}) (heval : ∀ text record expanded, Expand.entry s text {} = .ok record expanded →
      expanded.loads.Ordered → U.Holds expanded → Yields expanded (Expand.runModule s .runtime
        (Expand.instantiate s .runtime expanded.modules.length) record) (fun _ => U.Failed) fun _ => U.Failed)
    {run : Run} (hrun : run.Final s) : U.Failed run := by
  have htold : ∀ (run : Run) (log : List String), run.Reads { run with log, origins := [], diagnostics := [] } :=
    fun _ _ => .of_same rfl rfl rfl
  have hfinish : ∀ {record : ModuleRecord} {run : Run}, U.Holds run →
      Yields run (Expand.finish s record) (fun _ => U.Failed) fun _ => U.Failed := fun {_ run} h =>
    .of_ok rfl (U.failed (U.reads (htold run _) h))
  cases hrun with
  | program text =>
    have hyields : Yields {} (Expand.program s text) (fun _ => U.Failed) fun _ => U.Failed :=
      .bind ((U.entry h text).imp (fun _ _ h => h.1.holds) fun _ _ hf => hf.failed) fun _ _ => hfinish
    exact Expand.yields_final.1 hyields
  | module specifier =>
    have hyields : Yields {} (Expand.moduleProgram s specifier) (fun _ => U.Failed) fun _ => U.Failed :=
      .bind ((U.loadItems h specifier).imp (fun _ _ h => h.1.holds) fun _ _ hf => hf.failed) fun _ _ => hfinish
    exact Expand.yields_final.1 hyields
  | evaluation text =>
    have hyields : Yields {} (Expand.evaluateProgram s text) (fun _ => U.Failed) fun _ => U.Failed := by
      refine .bind ((U.entry h text).keep_eq.imp (fun _ _ h => h) fun _ _ hf => hf.failed) ?_
      rintro record expanded ⟨hentry, h₁, -⟩
      exact .get_bind (heval text record expanded hentry h₁.ordered h₁.holds)
    exact Expand.yields_final.1 hyields

end Upkeep

end Hygiene
