import Hygiene.Expand.Session
import Hygiene.Proofs.Expand.Items
import Hygiene.Proofs.Module.Record

/-!
# Whole programs are expanded soundly

The readers of terms are sound at every depth, and so are modules. So an operation on a program leaves a sound run,
whether it succeeds or not.
-/

namespace Hygiene

variable {run : Run} {s : Setup}

/-- What is left after a pragma is part of the tokens. -/
theorem splitPragma_subset {tokens rest : List Token} {dialect : Option Dialect}
    (h : splitPragma tokens = .ok (dialect, rest)) : rest ⊆ tokens := by
  have hdrop : ∀ ts : List Token, dropSemicolon ts ⊆ ts := by
    intro ts
    cases ts with
    | nil => exact List.nil_subset _
    | cons t ts =>
      rw [dropSemicolon]
      split
      · exact List.subset_cons_self _ _
      · exact fun _ h => h
  unfold splitPragma at h
  split at h
  · split at h
    · split at h
      · next rest =>
        split at h <;> cases h
        have := hdrop rest
        grind
      · cases h
    · cases h
      exact fun _ h => h
  · cases h
    exact fun _ h => h

namespace Expand

variable {m : Mode} {l : List Content} {run : Run} {expand : Home → List Token → Expand (List ModuleItem)}

theorem sound_addSource (name text : String) : Sound m l (addSource name text) fun _ => [] :=
  fun _ hr _ _ _ => ⟨hr.of_sameHistory ⟨rfl, rfl, rfl, rfl, rfl⟩ hr.heap, Run.SameHistory.extends ⟨rfl, rfl, rfl, rfl, rfl⟩, .nil⟩

theorem sound_whileLoading {α : Type} {Q : α → List Content} {x : Expand α} (specifier : String) (hx : Sound m l x Q) :
    Sound m l (whileLoading specifier x) Q := by
  intro run hr hs hm hl
  have hsame : run.SameHistory { run with loading := specifier :: run.loading } := ⟨rfl, rfl, rfl, rfl, rfl⟩
  refine .whileLoading (Yields.imp (hx _ (hr.of_sameHistory hsame hr.heap) hs hm hl) (fun a run' h => ?_) ?_)
  · exact ⟨h.1.of_sameHistory ⟨rfl, rfl, rfl, rfl, rfl⟩ h.1.heap, ⟨h.2.1.events, h.2.1.settles, h.2.1.keeps⟩, h.2.2⟩
  · exact fun e run' h => h.of_sameHistory ⟨rfl, rfl, rfl, rfl, rfl⟩ h.heap

/-- The tokens of a module stand in its text. -/
theorem readModule_ends (hr : run.Sound) (specifier text : String) (file : Nat) (dialect : Dialect) :
    Ends run (readModule specifier text file dialect) fun r run' =>
      run = run' ∧ ∀ p ∈ Token.piecesAll r.2, p.StandsIn file := by
  unfold readModule
  split
  · exact hr
  · next htrees =>
    split
    · exact hr
    · next h =>
      exact ⟨rfl, fun p hp =>
        Token.mem_piecesAll_ofTrees (spelled_read htrees) (Token.piecesAll_subset (splitPragma_subset h) hp)⟩

/-- The tokens of a text are known once they have got the scope of their module. -/
theorem known_wrap {file : Nat} {tokens : List Token} {scope : ScopeId} {before : List Event}
    (h : run.events = .text file tokens scope :: before) :
    Known True run.events (Content.ofTokens (Token.wrap scope tokens)) := by
  rw [h]
  refine .of_tokens fun p hp => ?_
  rw [Token.piecesAll_wrap] at hp
  obtain ⟨q, hq, rfl⟩ := List.mem_map.1 hp
  exact .text hq

/-- The tokens of modules are expanded soundly. -/
def ItemsSound (expand : Home → List Token → Expand (List ModuleItem)) : Prop :=
  ∀ home tokens, Sound ⟨False, True, []⟩ (Content.ofTokens tokens) (expand home tokens) (·.flatMap ModuleItem.content)

/-- A module was made known in a run: it was read when all was settled, and the transformers it exports have a
meaning. -/
def Compiled (run : Run) (record : ModuleRecord) (run' : Run) : Prop :=
  run'.Sound ∧ Run.Extends False run run' ∧ Known True run'.events record.content ∧ record.Exported run'

/-- A record of items that are known is kept. -/
theorem keepRecord_ends (hr : run.Sound) (hs : run.Settled) {items : List ModuleItem}
    (hk : Known True run.events (items.flatMap ModuleItem.content)) (specifier : String) (file : Nat) (dialect : Dialect) :
    Ends run (do
      match ModuleRecord.ofItems (← get).store specifier file dialect items with
      | .error ident => fail (.parse (.undeclaredExport ident.name)) ident.site
      | .ok record =>
        modify fun run => { run with
          modules := Assoc.insert specifier record run.modules
          snapshots := ⟨specifier, run.store, run.registry⟩ :: run.snapshots }
        return record) fun record run' => Compiled run record run' := by
  refine .get_bind ?_
  split
  · exact hr
  · next record hrecord =>
    obtain ⟨hexports, hitems⟩ := ModuleRecord.ofItems_ok hrecord
    have hcontent : Known True run.events record.content := by
      rw [ModuleRecord.content, hitems]
      exact hk
    have hexported : record.Exported run := by
      intro e he
      obtain ⟨b, hb, hkind, hid⟩ := hexports e he
      rw [Option.isSome_iff_ne_none]
      exact fun hnone => hs e.2 ⟨⟨b, hb, hkind, hid⟩, hnone⟩
    refine ⟨{ hr with modules := fun entry he => ?_, exports := fun entry he => ?_ },
      ⟨⟨[], rfl, fun h => h.elim⟩, fun _ h => h, fun _ h => h⟩, hcontent, hexported⟩
    · rcases Assoc.mem_insert he with heq | he
      · exact heq ▸ hcontent
      · exact hr.modules entry he
    · rcases Assoc.mem_insert he with heq | he
      · exact heq ▸ hexported
      · exact hr.exports entry he

theorem compile_ends (hexpand : ItemsSound expand)
    (specifier text : String) (dialect : Dialect) (hr : run.Sound) (hs : run.Settled) :
    Ends run (compile expand specifier text dialect) fun record run' => Compiled run record run' := by
  have inside : ∀ h, Mode.Inside ⟨False, True, []⟩ h := fun _ _ h => by cases h
  refine .bind (sound_note (m := ⟨False, True, []⟩) (l := []) _ run hr (fun _ => hs) (inside _) .nil) ?_
  rintro _ run₁ ⟨hr₁, he₁, _⟩
  refine .bind (sound_addSource (m := ⟨False, True, []⟩) (l := []) _ _ run₁ hr₁ (fun _ => he₁.settled hs) (inside _) .nil) ?_
  rintro file run₂ ⟨hr₂, he₂, _⟩
  refine .bind (readModule_ends hr₂ specifier text file dialect) ?_
  rintro ⟨dialect, tokens⟩ _ ⟨rfl, ht⟩
  refine .bind (freshScope_ends hr₂ (.text file tokens) (fun _ => rfl) (fun _ _ => rfl) (fun _ => rfl) fun _ => ht) ?_
  rintro scope run₃ ⟨hr₃, he₃, hevents⟩
  have he₃ : Run.Extends False run run₃ := (he₁.trans he₂).trans he₃.of_quiet
  refine .bind (sound_whileLoading specifier (hexpand _ _) run₃ hr₃ (fun _ => he₃.settled hs) (inside _)
    (known_wrap hevents)) ?_
  rintro items run₄ ⟨hr₄, he₄, hk₄⟩
  have he₄ := he₃.trans he₄
  refine (keepRecord_ends hr₄ (he₄.settled hs) hk₄ specifier file dialect).imp ?_
  rintro record run₅ ⟨hr₅, he₅, hk₅⟩
  exact ⟨hr₅, he₄.trans he₅, hk₅⟩

theorem load_ends (s : Setup) (hexpand : ItemsSound expand)
    (specifier : String) (site : Site) (hr : run.Sound) (hs : run.Settled) :
    Ends run (load s expand specifier site) fun record run' => Compiled run record run' := by
  refine .get_bind ?_
  split
  · next record hrecord =>
    obtain ⟨key, hmem⟩ := Assoc.exists_mem_of_get? hrecord
    exact ⟨hr, .refl _ _, hr.modules _ hmem, hr.exports _ hmem⟩
  · split
    · exact hr
    · let run₁ : Run := { run with asked := specifier :: run.asked }
      have hr₁ : run₁.Sound := hr.of_sameHistory ⟨rfl, rfl, rfl, rfl, rfl⟩ hr.heap
      refine .bind_ok (show _ = EStateM.Result.ok _ run₁ from rfl) ?_
      split
      · exact hr₁
      · exact (compile_ends hexpand specifier _ _ hr₁ hs).imp fun _ _ h =>
          ⟨h.1, ⟨h.2.1.events, h.2.1.settles, h.2.1.keeps⟩, h.2.2⟩

end Expand

/-- The readers of terms are sound, however deep they go. -/
theorem passes_sound (s : Setup) (limit : Nat) (home : Home) : (passes s limit home).Sound := by
  induction limit generalizing home with
  | zero =>
    constructor
    · exact fun _ => Parse.sound_exhausted
    · exact fun _ => Parse.sound_exhausted
    · exact fun _ _ => Parse.sound_exhausted
    · exact fun _ _ => ⟨Expand.Sound.exhausted, fun _ _ _ h => nomatch h⟩
    · exact fun _ _ _ hr _ => hr
  | succ limit ih =>
    constructor
    · exact fun m => Parse.sound_assignmentStep (ih home)
    · exact fun m => Parse.sound_unaryStep s (ih home)
    · exact fun q regions => Parse.sound_statementStep s home (ih home)
    · exact Expand.sound_body (ih home)
    · intro specifier site run hr hs
      refine Expand.load_ends s (fun home tokens => ?_) specifier site hr hs
      exact Expand.sound_moduleItems s home (ih home) fun _ h => h

theorem Expand.items_sound (s : Setup) : Expand.ItemsSound (Expand.items s) :=
  fun home _ => Expand.sound_moduleItems s home (passes_sound s s.limit home) fun _ h => h

/-- A run that has not begun is sound. -/
theorem Run.sound_empty : Run.Sound {} where
  history := .nil
  nextScope := rfl
  nextFresh := rfl
  bindings := rfl
  transformers := fun _ h => by cases h
  outputScopes := fun _ h => by cases h
  values := fun _ h => by cases h
  heap := Heap.meets_empty
  modules := fun _ h => by cases h
  exports := fun _ h => by cases h
  instances := fun _ h => by cases h

theorem Run.settled_empty : Run.Settled {} := by
  rintro id ⟨⟨b, hb, _⟩, _⟩
  cases hb

theorem Expand.entry_ends (s : Setup) (text : String) :
    Expand.Ends {} (Expand.entry s text) fun record run => Expand.Compiled {} record run :=
  Expand.compile_ends (Expand.items_sound s) _ _ _ Run.sound_empty Run.settled_empty

theorem Expand.finish_ends (s : Setup) (record : ModuleRecord) (hr : run.Sound) :
    Expand.Ends run (Expand.finish s record) fun _ run' => run'.Sound :=
  hr.of_sameHistory ⟨rfl, rfl, rfl, rfl, rfl⟩ hr.heap

/-- A setup in which there are no other modules. -/
def Setup.alone : Setup := { load := fun specifier => .error specifier, limit := 60 }

/-- Whether there is an invocation for which the test succeeds on the events before it and after it; `later` are the
events after those that are searched. -/
def History.anyInvocation (test : Invocation → List Event → List Event → Bool) (later : List Event) : List Event → Bool
  | [] => false
  | .invoked inv :: before => test inv before later || anyInvocation test (later ++ [.invoked inv]) before
  | e :: before => anyInvocation test (later ++ [e]) before

theorem History.exists_invocation {test : Invocation → List Event → List Event → Bool} {events : List Event}
    (h : anyInvocation test [] events = true) : ∃ later inv before,
      events = later ++ .invoked inv :: before ∧ test inv before later = true := by
  have go : ∀ events later, anyInvocation test later events = true → ∃ later' inv before,
      later ++ events = later' ++ .invoked inv :: before ∧ test inv before later' = true := by
    intro events
    induction events with
    | nil => exact fun _ h => by cases h
    | cons e events ih =>
      intro later h
      have next : anyInvocation test (later ++ [e]) events = true → ∃ later' inv before,
          later ++ e :: events = later' ++ .invoked inv :: before ∧ test inv before later' = true := by
        intro h
        obtain ⟨later', inv, before, heq, htest⟩ := ih _ h
        exact ⟨later', inv, before, by rw [← heq, List.append_assoc]; rfl, htest⟩
      cases e with
      | invoked inv =>
        rw [anyInvocation, Bool.or_eq_true] at h
        rcases h with h | h
        · exact ⟨later, inv, events, rfl, h⟩
        · exact next h
      | _ => exact next h
  exact go events [] h

/-- A program that has been expanded is run. -/
theorem evaluateProgram_of_entry {text : String} {record : ModuleRecord} {expanded : Run}
    (h : Expand.entry s text {} = .ok record expanded) : evaluateProgram s text =
      Expand.runModule s .runtime (Expand.instantiate s .runtime expanded.modules.length) record expanded := by
  unfold evaluateProgram Expand.evaluateProgram
  simp only [Bind.bind, EStateM.bind, h]
  rfl

/-- The runs that operations on programs leave, whether they succeed or not. -/
inductive Run.Final (s : Setup) : Run → Prop where
  | program (text : String) : Final s (finalRun (expandProgram s text))
  | module (specifier : String) : Final s (finalRun (expandModule s specifier))
  | evaluation (text : String) : Final s (finalRun (evaluateProgram s text))

theorem Run.Final.of_ok {text : String} {expansion : Expansion}
    (h : expandProgram s text = .ok expansion run) : run.Final s := by
  have hfinal : Run.Final s (finalRun (expandProgram s text)) := .program text
  rwa [h] at hfinal

/-- The run that an operation on a program leaves is sound. -/
theorem Run.Final.sound (h : run.Final s) : run.Sound := by
  cases h with
  | program text =>
    have hends : Expand.Ends {} (Expand.program s text) fun _ run => run.Sound :=
      .bind (Expand.entry_ends s text) fun record run h => Expand.finish_ends s record h.1
    exact Expand.yields_final.1 hends
  | module specifier =>
    have hends : Expand.Ends {} (Expand.moduleProgram s specifier) fun _ run => run.Sound :=
      .bind (Expand.load_ends s (Expand.items_sound s) specifier _ Run.sound_empty Run.settled_empty)
        fun record run h => Expand.finish_ends s record h.1
    exact Expand.yields_final.1 hends
  | evaluation text =>
    have hends : Expand.Ends {} (Expand.evaluateProgram s text) fun _ run => run.Sound := by
      refine .bind (Expand.entry_ends s text) fun record run h => ?_
      refine .get_bind ?_
      exact (Expand.runModule_ends s .runtime _ h.1 h.2.2.1.good).imp fun _ _ h => h.1
    exact Expand.yields_final.1 hends

end Hygiene
