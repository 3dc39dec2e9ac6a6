import Hygiene.Module.Loader
import Hygiene.Proofs.Loading.Stack

/-!
# Only one dialect declares transformers

The keywords of transformers begin declarations only while the code of a sweet module is read, and an import passes
transformers on as they are. The law of reading holds for the homes that it covers, so the module that is being expanded
is known throughout. An entry program stands under a specifier of its own, which cannot be loaded while it is expanded.
-/

namespace Hygiene

open List

variable {dialect : Dialect} {within' : List String} {file : Nat} {specifier text : String}

/-! ### Dialects of texts -/

/-- The dialect that the trees after the marker of a pragma name. -/
def Dialect.ofName? : List (Tree Span) → Option Dialect
  | .atom _ (.str name) :: _ => ofPragma? name
  | _ => none

/-- The dialect that the trees of a text are written in: the one that a pragma names, or the given one when there is no
pragma. -/
def Dialect.ofTrees? (default : Dialect) : List (Tree Span) → Option Dialect
  | hash :: lang :: rest => if hash.isPunct "#" && lang.isWord "lang" then ofName? rest else some default
  | _ => some default

/-- The dialect that a text is written in. There is none for a text that cannot be read, or whose pragma names no
dialect. -/
def Dialect.ofText? (default : Dialect) (text : String) : Option Dialect :=
  match read text with
  | .ok trees => ofTrees? default trees
  | .error _ => none

/-- The dialect of a module that the loader knows. -/
def Setup.loadedDialect? (s : Setup) (specifier : String) : Option Dialect :=
  match s.load specifier with
  | .ok text => Dialect.ofText? s.config.defaultDialect text
  | .error _ => none

/-- The dialect of a module of a run. With an entry program, its specifier stands for the program. -/
def Setup.dialect? (s : Setup) (program : Option String) (specifier : String) : Option Dialect :=
  match program with
  | some text =>
    if specifier = entrySpecifier then Dialect.ofText? s.config.entryDialect text else s.loadedDialect? specifier
  | none => s.loadedDialect? specifier

theorem Token.isWord_ofTree (file : Nat) (tree : Tree Span) (word : String) :
    (ofTree file tree).isWord word = tree.isWord word := by
  unfold ofTree Tree.isWord
  rw [Tree.ident?_map]

theorem Dialect.ofTrees?_of_splitPragma {trees : List (Tree Span)} {pragma : Option Dialect}
    {tokens : List Token} (h : splitPragma (Token.ofTrees file trees) = .ok (pragma, tokens)) (default : Dialect) :
    ofTrees? default trees = some (pragma.getD default) := by
  match trees, h with
  | [], h =>
    cases h
    rfl
  | [_], h =>
    cases h
    rfl
  | hash :: lang :: rest, h =>
    have hmarked : ((Token.ofTree file hash).isPunct "#" && (Token.ofTree file lang).isWord "lang") =
        (hash.isPunct "#" && lang.isWord "lang") := by
      rw [Token.isWord_ofTree, Token.ofTree, Tree.isPunct_map]
    simp only [Token.ofTrees, map_cons, splitPragma, hmarked] at h
    rw [ofTrees?]
    by_cases hpragma : (hash.isPunct "#" && lang.isWord "lang") = true
    · rw [if_pos hpragma] at h ⊢
      match rest, h with
      | .atom _ (.str name) :: _, h =>
        simp only [Token.ofTree, Tree.map, map_cons] at h
        cases hname : ofPragma? name with
        | none =>
          rw [hname] at h
          cases h
        | some dialect =>
          rw [hname] at h
          cases h
          exact hname
      | [], h => cases h
      | .atom _ (.ident _) :: _, h => simp [Token.ofTree, Tree.map] at h
      | .atom _ (.punct _) :: _, h => simp [Token.ofTree, Tree.map] at h
      | .atom _ (.number _ _) :: _, h => simp [Token.ofTree, Tree.map] at h
      | .nest _ _ _ :: _, h => simp [Token.ofTree, Tree.map] at h
    · rw [if_neg hpragma] at h ⊢
      cases h
      rfl

/-- The dialect with which a module is expanded is the one that its text is written in. -/
theorem Expand.ofText?_of_readModule
    {r : Dialect × List Token} (h : (readModule specifier text file dialect).MayGive r) :
    Dialect.ofText? dialect text = some r.1 := by
  obtain ⟨run, run', h⟩ := h
  unfold readModule at h
  unfold Dialect.ofText?
  cases htrees : read text with
  | error e =>
    rw [htrees] at h
    cases h
  | ok trees =>
    rw [htrees] at h
    dsimp only at h
    cases hsplit : splitPragma (Token.ofTrees file trees) with
    | error fault =>
      rw [hsplit] at h
      cases h
    | ok parts =>
      rw [hsplit] at h
      cases h
      exact Dialect.ofTrees?_of_splitPragma hsplit dialect

/-! ### Where transformers are declared -/

/-- Every transformer that the run knows, has known when a module was finished, or has called was declared in a module
with the property. -/
structure Run.DeclaredIn (P : String → Prop) (run : Run) : Prop where
  registry : ∀ entry ∈ run.registry.transformers, P entry.2.module
  snapshots : ∀ snapshot ∈ run.snapshots, ∀ entry ∈ snapshot.registry.transformers, P entry.2.module
  calls : ∀ call, .called call ∈ run.events → P call.transformer.module

namespace Run.DeclaredIn

variable {P : String → Prop} {run run' : Run}

theorem new : Run.DeclaredIn P {} := ⟨nofun, nofun, nofun⟩

/-- New events that tell of no call make no difference. -/
theorem of_events (h : run.DeclaredIn P) (hregistry : run'.registry.transformers = run.registry.transformers)
    (hsnapshots : run'.snapshots = run.snapshots) {new : List Event} (hevents : run'.events = new ++ run.events)
    (hnew : ∀ call, .called call ∉ new) : run'.DeclaredIn P where
  registry := hregistry ▸ h.registry
  snapshots := hsnapshots ▸ h.snapshots
  calls call hcall := by
    rw [hevents] at hcall
    rcases mem_append.1 hcall with hcall | hcall
    · exact absurd hcall (hnew call)
    · exact h.calls call hcall

theorem define (h : run.DeclaredIn P) (id : BindingId) {t : Transformer} (ht : P t.module) :
    Run.DeclaredIn P { run with registry := run.registry.define id t } where
  registry entry he := by
    rcases Assoc.mem_insert he with heq | he
    · rwa [heq]
    · exact h.registry entry he
  snapshots := h.snapshots
  calls := h.calls

end Run.DeclaredIn

namespace Change

variable {P : String → Prop} {within : List String}

/-- The change that restores the stack of modules and keeps transformers declared in modules with the property, while the
given modules are being expanded. -/
abbrev declaring (within : List String) (P : String → Prop) : Change where
  Rel run run' := within ⊆ run.loading → run.DeclaredIn P → run'.loading = run.loading ∧ run'.DeclaredIn P
  refl _ _ h := ⟨rfl, h⟩
  trans h h' hwithin hrun := by
    obtain ⟨hloading, hrun'⟩ := h hwithin hrun
    obtain ⟨hloading', hrun''⟩ := h' (hloading ▸ hwithin) hrun'
    exact ⟨hloading'.trans hloading, hrun''⟩

theorem declaring_inert : (declaring within P).Covers .inert where
  rel hb _ h := by
    obtain ⟨new, hevents, hnew⟩ := hb.events
    refine ⟨by rw [hb.same], h.of_events (by rw [hb.same]) (by rw [hb.same]) hevents fun call hcall => ?_⟩
    cases (hnew _ hcall).1

theorem declaring_executes (phase : Option Phase) : (declaring within P).Covers (.executes phase) where
  rel hr _ h := by
    obtain ⟨new, hevents, hnew⟩ := hr.events
    refine ⟨by rw [hr.same], h.of_events (by rw [hr.same]) (by rw [hr.same]) hevents fun call hcall => ?_⟩
    cases hnew _ hcall

theorem declaring_notes : (declaring within P).Notes := fun _ _ _ _ _ _ _ h => ⟨rfl, h.registry, h.snapshots, h.calls⟩

/-- A transformer that is called is one that the run knows. -/
theorem declaring_ofReading : (declaring within P).OfReading where
  inert := declaring_inert
  code := declaring_executes none
  opening {run _ _} stream hmem _ h := by
    refine ⟨rfl, h.registry, h.snapshots, fun call hcall => ?_⟩
    rcases mem_cons.1 hcall with heq | hcall
    · cases heq
      exact h.registry _ hmem
    · exact h.calls call hcall
  closing _ _ _ _ h := by
    refine ⟨rfl, h.registry, h.snapshots, fun call hcall => ?_⟩
    rcases mem_cons.1 hcall with heq | hcall
    · cases heq
    · exact h.calls call hcall

end Change

namespace Expand

variable {α : Type} {P : String → Prop} {within : List String}

/-- While the given modules are being expanded, the computation restores the stack of modules, and transformers stay
declared in modules with the property. -/
def Declares (within : List String) (P : String → Prop) (x : Expand α) : Prop := Makes (.declaring within P) x

theorem Declares.inert {x : Expand α} (hx : Inert x) : Declares within P x := .mono Change.declaring_inert hx

theorem Declares.noted {x : Expand α} (hx : Noted x) : Declares within P x := Makes.noted Change.declaring_notes hx

/-- While one more module is being expanded. -/
theorem Declares.whileLoading {x : Expand α} (hx : Declares within' P x)
    (h : within' ⊆ specifier :: within) : Declares within P (whileLoading specifier x) := by
  refine Makes.whileLoading hx specifier fun run run' hmakes hwithin hrun => ?_
  have hstart : within' ⊆ specifier :: run.loading := fun m hm =>
    mem_cons.2 ((mem_cons.1 (h hm)).imp_right fun hm => hwithin hm)
  obtain ⟨hloading, hrun'⟩ := hmakes hstart ⟨hrun.registry, hrun.snapshots, hrun.calls⟩
  exact ⟨congrArg List.tail hloading, hrun'.registry, hrun'.snapshots, hrun'.calls⟩

theorem declares_bindImport (s : Setup) (record : ModuleRecord) (imported : Import) (wanted : String × Token × Site) :
    Declares within P (bindImport s record imported wanted) :=
  makes_bindImport Change.declaring_inert (Change.declaring_executes _)
    (fun _ id _ ⟨_, hmem⟩ _ h => ⟨rfl, h.define id (h.registry _ hmem)⟩)
    (fun _ _ _ _ h => ⟨rfl, h.registry, h.snapshots, h.calls⟩) s record imported wanted

end Expand

/-- Transformers are declared in modules with the property, if every sweet module whose code is read has it. -/
def declaringLaw (s : Setup) (within : List String) (P : String → Prop) : Law s s :=
  Change.law (c := .declaring within P) Change.declaring_ofReading s (fun home => home.dialect = .sweet → P home.specifier)
    fun _ hP sweet _ id _ ht _ h => ⟨rfl, h.define id (ht ▸ hP sweet)⟩

/-! ### Modules -/

section Modules

variable {s : Setup} {within : List String} {P : String → Prop} {p : Passes} {home : Home}

namespace Expand

variable {expand : Home → List Token → Expand (List ModuleItem)}

theorem declares_processImport (hp : ∀ specifier site, Declares within P (p.load specifier site)) (imported : Import) :
    Declares within P (processImport s p imported) := by
  refine .bind (Declares.noted (noted_request _)) fun _ => .bind (hp _ _) fun record => ?_
  exact .forM (declares_bindImport s record imported)

/-- Expanding the tokens of a module declares transformers where the property allows it. -/
def ItemsDeclare (within : List String) (P : String → Prop) (expand : Home → List Token → Expand (List ModuleItem)) :
    Prop := ∀ home tokens, (home.dialect = .sweet → P home.specifier) → Declares within P (expand home tokens)

theorem declares_moduleItems {p : Home → Passes}
    (ht : ∀ home, (declaringLaw s within P).Covers home → (declaringLaw s within P).Ties (p home) (p home))
    (hp : ∀ home specifier site, Declares within P ((p home).load specifier site)) :
    ItemsDeclare within P fun home tokens => moduleItems s home (p home) tokens := by
  intro home tokens hc
  exact Law.expandItems hc (ht home hc) (declares_processImport (hp home)) tokens

/-- The module that is expanded has the property if its text is written in the sweet dialect. -/
theorem declares_compile
    (hexpand : ItemsDeclare within' P expand)
    (hP : Dialect.ofText? dialect text = some .sweet → P specifier) (hwithin : within' ⊆ specifier :: within) :
    Declares within P (compile expand specifier text dialect) := by
  rw [compile_eq]
  refine .bind (Declares.noted (noted_note _)) fun _ => .bind (Declares.noted (noted_addSource _ _)) fun file => ?_
  refine .bind_mayGive (Declares.inert (inert_readModule _ _ _ _)) fun r hr => ?_
  refine .bind (Declares.inert (inert_freshScope fun _ => ⟨rfl, rfl⟩)) fun scope => ?_
  have hhome : r.1 = .sweet → P specifier := fun hsweet => hP (hsweet ▸ ofText?_of_readModule hr)
  refine .bind (Declares.whileLoading (hexpand _ _ hhome) hwithin) fun items => .bind .get fun run => ?_
  split
  · exact .fail trivial
  · refine .bind (.modify fun run _ h => ⟨rfl, h.registry, fun snapshot hs => ?_, h.calls⟩) fun _ => .pure
    rcases mem_cons.1 hs with rfl | hs
    · exact h.registry
    · exact h.snapshots snapshot hs

/-- What is loaded is none of the modules that are being expanded. -/
theorem declares_load (hexpand : ItemsDeclare within P expand)
    (hP : ∀ specifier ∉ within, s.loadedDialect? specifier = some .sweet → P specifier) (specifier : String) (site : Site) :
    Declares within P (load s expand specifier site) := by
  refine .of_final fun run hwithin h => ?_
  rw [load_eq]
  split
  · exact ⟨rfl, h⟩
  · split
    · exact ⟨rfl, h⟩
    · next hloading =>
      have hasked : Run.DeclaredIn P { run with asked := specifier :: run.asked } := ⟨h.registry, h.snapshots, h.calls⟩
      split
      · exact ⟨rfl, hasked⟩
      · next text htext =>
        refine (declares_compile hexpand (fun hsweet => hP specifier (fun hmem => hloading (hwithin hmem)) ?_)
          (subset_cons_self _ _)).final _ hwithin hasked
        rw [Setup.loadedDialect?, htext]
        exact hsweet

end Expand

/-- Loading modules declares transformers where the property allows it, however deep readers may go. -/
theorem passes_declare (hP : ∀ specifier ∉ within, s.loadedDialect? specifier = some .sweet → P specifier) (limit : Nat)
    (home : Home) (specifier : String) (site : Site) :
    Expand.Declares within P ((passes s limit home).load specifier site) := by
  induction limit generalizing home specifier site with
  | zero => exact .exhausted trivial
  | succ limit ih =>
    exact Expand.declares_load
      (Expand.declares_moduleItems (fun _ hc => (declaringLaw s within P).ties_passes limit hc) ih) hP specifier site

theorem Expand.declares_items (hP : ∀ specifier ∉ within, s.loadedDialect? specifier = some .sweet → P specifier) :
    ItemsDeclare within P (items s) :=
  declares_moduleItems (fun _ hc => (declaringLaw s within P).ties_passes s.limit hc) (passes_declare hP s.limit)

theorem Expand.declares_finish (record : ModuleRecord) : Declares within P (finish s record) :=
  makes_finish (fun _ _ _ h => ⟨rfl, h.registry, h.snapshots, h.calls⟩) s record

/-- While an entry program is expanded, its specifier stands for the program. -/
theorem Expand.declares_entry (s : Setup) (text : String) :
    Declares [] (fun specifier => s.dialect? (some text) specifier = some .sweet) (entry s text) := by
  have hitems : ItemsDeclare [entrySpecifier] (fun specifier => s.dialect? (some text) specifier = some .sweet) (items s) := by
    refine declares_items fun specifier hne hsweet => ?_
    rwa [Setup.dialect?, if_neg (by simpa using hne)]
  refine declares_compile hitems (fun hsweet => ?_) (List.Subset.refl _)
  rwa [Setup.dialect?, if_pos rfl]

end Modules

/-- Only sweet modules declare transformers: in the run that an operation on a program leaves, however it ends, every
transformer that is known, that was known when a module was finished, or that was called names a sweet module as the one
that declares it. -/
theorem declaredIn_sweet (s : Setup) :
    (∀ text, (finalRun (expandProgram s text)).DeclaredIn fun m => s.dialect? (some text) m = some .sweet) ∧
    (∀ text, (finalRun (evaluateProgram s text)).DeclaredIn fun m => s.dialect? (some text) m = some .sweet) ∧
    ∀ specifier, (finalRun (expandModule s specifier)).DeclaredIn fun m => s.dialect? none m = some .sweet := by
  refine ⟨fun text => ?_, fun text => ?_, fun specifier => ?_⟩
  · have hprogram : Expand.Declares [] (fun m => s.dialect? (some text) m = some .sweet) (Expand.program s text) :=
      .bind (Expand.declares_entry s text) fun record => Expand.declares_finish record
    exact (hprogram.final {} (nil_subset _) .new).2
  · have hevaluate : Expand.Declares [] (fun m => s.dialect? (some text) m = some .sweet)
        (Expand.evaluateProgram s text) := by
      refine .bind (Expand.declares_entry s text) fun record => .bind .get fun run => ?_
      exact .mono (Change.declaring_executes _) (Expand.executes_runModule s .runtime _ record)
    exact (hevaluate.final {} (nil_subset _) .new).2
  · have hitems : Expand.ItemsDeclare [] (fun m => s.dialect? none m = some .sweet) (Expand.items s) :=
      Expand.declares_items fun _ _ hsweet => hsweet
    have hmodule : Expand.Declares [] (fun m => s.dialect? none m = some .sweet) (Expand.moduleProgram s specifier) :=
      .bind (Expand.declares_load hitems (fun _ _ hsweet => hsweet) _ _) fun record => Expand.declares_finish record
    exact (hmodule.final {} (nil_subset _) .new).2

/-- The transformer of the sweet module gives a declaration, which a base program reads as plain code. -/
example :
    let s : Setup := { load := tableLoader [("./m.js", "#lang 'sweet.js'; export syntax m = ctx => #`syntax n = 1;`;")] }
    let run := finalRun (expandProgram s "#lang 'base'; import \x7b m \x7d from './m.js'; m")
    run.registry.transformers.map (·.2.module) = ["./m.js", "./m.js"] ∧ run.expansions = 1 ∧
      s.loadedDialect? "./m.js" = some .sweet := by decide +kernel

end Hygiene
