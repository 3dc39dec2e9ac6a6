import Hygiene.Proofs.Lexical.Items

/-!
# Modules are placed in regions

A module is expanded in a region of its own, which lies in no other. So in the end of a run without transformers every
expanded module is placed in its region, and nothing of it is left to be expanded.
-/

namespace Hygiene

variable {dialect : Dialect} {specifier text : String}

open Outline Token Expand

variable {s : Setup} {d : List Token → List Key} {c : ScopeSet} {p : Passes}

theorem ExportDeclaration.completes (hb : Pends p) (exported : ExportDeclaration) :
    Completes p.declares c exported.outline (exported.complete p.body) ExportDeclaration.outline := by
  cases exported with
  | declaration r => exact Completes.map (r.completes hb)
  | function fn => exact Completes.map (fn.completes hb true)
  | defaultValue binding value =>
    have hvalue : Completes p.declares c ([declare binding] ++ value.outline) (value.complete p.body)
        fun e => [declare binding] ++ e.outline := (value.completes hb).after ⟨trivial, trivial⟩
    exact Completes.map hvalue

/-- A completed item stays placed. -/
theorem ModuleItem.completes (hb : Pends p) (item : ModuleItem) :
    Completes p.declares c item.outline (item.complete p.body) ModuleItem.outline := by
  cases item with
  | importItem imported => exact Completes.pure (completeAll_declare _)
  | exportItem exported site => exact Completes.map (exported.completes hb)
  | exportList specifiers site => exact Completes.pure (by simp [ModuleItem.outline, completeAll_iff, Complete])
  | statement inner => exact Completes.map (inner.completes hb)

theorem ModuleItem.completesAll (hb : Pends p) (items : List ModuleItem) :
    Completes p.declares c (items.flatMap ModuleItem.outline) (items.mapM (·.complete p.body))
      (·.flatMap ModuleItem.outline) := by
  induction items with
  | nil => exact Completes.pure trivial
  | cons item items ih =>
    rw [List.mapM_cons]
    exact Completes.map₂ (item.completes hb) ih

/-- The tokens of modules are expanded completely, in the region they stand in. -/
def ItemsLexical (expand : Home → List Token → Expand (List ModuleItem)) : Prop :=
  ∀ home d c tokens, Lex d c (Uniform c tokens) [] (expand home tokens)
    (fun items => CompleteAll (items.flatMap ModuleItem.outline)) (·.flatMap ModuleItem.outline)

namespace Expand

/-- A module is expanded to complete items in its region. -/
theorem lex_moduleItems (s : Setup) (home : Home) (hp : p.Lexical) (ha : p.Agrees s) (tokens : List Token) :
    Lex d c (Uniform c tokens) [] (moduleItems s home p tokens)
      (fun items => CompleteAll (items.flatMap ModuleItem.outline)) (·.flatMap ModuleItem.outline) := by
  refine Lex.of_complete p.declares (.bind (Parse.Lex.on (Parse.lex_moduleItems s home hp ha _) fun h => h) fun r => ?_)
  exact (ModuleItem.completesAll (pends hp ha) r.1).conseq (fun _ => trivial) (fun _ _ hq => hq.1) (fun _ _ _ => rfl)
    fun _ _ _ _ _ h => h

/-- The tokens of a text have no scopes. -/
theorem uniform_of_readModule {file : Nat} {run run' : Run}
    {r : Dialect × List Token} (h : readModule specifier text file dialect run = .ok r run') :
    run' = run ∧ Uniform .empty r.2 := by
  unfold readModule at h
  cases htrees : read text with
  | error e =>
    rw [htrees] at h
    cases h
  | ok trees =>
    rw [htrees] at h
    dsimp only at h
    cases hpragma : splitPragma (ofTrees file trees) with
    | error e =>
      rw [hpragma] at h
      cases h
    | ok split =>
      rw [hpragma] at h
      cases h
      refine ⟨rfl, fun q hq => ?_⟩
      obtain ⟨⟨span, hmark⟩, _⟩ := mem_piecesAll_ofTrees (spelled_read htrees)
        (piecesAll_subset (splitPragma_subset hpragma) hq)
      rw [Piece.scopes, hmark]

theorem still_addSource (name text : String) : Still (addSource name text) := by
  intro run file run' h
  cases h
  exact ⟨rfl, rfl⟩

end Expand

namespace Regions

variable {R R' : Regions} {run run₁ run' : Run}

/-- A module that was expanded last is kept. -/
theorem Grows.keep (h : R.Grows run R' run₁) (store : run'.store = run₁.store)
    (modules : ∀ entry ∈ run'.modules, entry ∈ run₁.modules ∨
      ∃ M, run.store.nextScope ≤ M ∧ entry.2.Placed R' run₁.store M) : R.Grows run R' run' where
  next := store ▸ h.next
  agree := h.agree
  bodies := store ▸ h.bodies
  modules entry he := by
    rw [store]
    exact (modules entry he).elim (h.modules entry) Or.inr

end Regions

namespace Expand

variable {expand : Home → List Token → Expand (List ModuleItem)}

/-- Expanding a module opens a region in which the module is placed in the end. -/
theorem compile_grows (he : ItemsLexical expand) {record : ModuleRecord} {run run' : Run}
    (h : compile expand specifier text dialect run = .ok record run') (plain : run'.Plain) :
    run.Plain ∧ ∀ R : Regions, R.Valid run → ∃ R' : Regions, R'.Valid run' ∧ R.Grows run R' run' := by
  unfold compile at h
  obtain ⟨_, run₁, hnote, h₁⟩ := bind_eq_ok h
  obtain ⟨store₁, modules₁⟩ := still_note _ _ _ _ hnote
  obtain ⟨file, run₂, hsource, h₂⟩ := bind_eq_ok h₁
  obtain ⟨store₂, modules₂⟩ := still_addSource _ _ _ _ _ hsource
  obtain ⟨⟨dialect', tokens⟩, run₃, hread, h₃⟩ := bind_eq_ok h₂
  obtain ⟨rfl, hu⟩ := uniform_of_readModule hread
  have store : run₃.store = run.store := store₂.trans store₁
  have modules : run₃.modules = run.modules := modules₂.trans modules₁
  obtain ⟨F, run₄, hfresh, h₄⟩ := bind_eq_ok h₃
  rw [freshScope_eq] at hfresh
  cases hfresh
  obtain ⟨items, run₅, hloading, h₅⟩ := bind_eq_ok h₄
  obtain ⟨run₆, hitems, rfl⟩ := whileLoading_eq_ok hloading
  obtain ⟨_, _, hget, h₆⟩ := bind_eq_ok h₅
  cases hget
  dsimp only at h₆
  cases hrecord : ModuleRecord.ofItems run₆.store specifier file dialect' items with
  | error ident =>
    rw [hrecord] at h₆
    cases h₆
  | ok record' =>
    rw [hrecord] at h₆
    cases h₆
    have houtline : record.outline = items.flatMap ModuleItem.outline := by
      rw [ModuleRecord.outline, (ModuleRecord.ofItems_ok hrecord).2]
    have hin := Lex.inside hitems plain (he _ (fun _ => []) (ScopeSet.empty.insert run₃.store.nextScope) _) run
      (by rw [store]) rfl (by rw [← store]) modules
    refine ⟨hin.1, fun R hv => ?_⟩
    obtain ⟨hcomplete, R', hv', grows, placed⟩ := hin.2 hu.wrap R hv (by simp)
    refine ⟨R', hv'.of_same rfl, grows.keep rfl fun entry hentry => ?_⟩
    rcases Assoc.mem_insert hentry with hrecord | hentry
    · refine Or.inr ⟨run₃.store.nextScope, Nat.le_of_eq (by rw [store]), ?_⟩
      rw [hrecord]
      exact ⟨houtline ▸ hcomplete, houtline ▸ placed⟩
    · exact Or.inl hentry

/-- The record of a module that was expanded before is answered; any other is expanded in a region of its own. -/
theorem lex_load (s : Setup) (he : ItemsLexical expand) (specifier : String) (site : Site) :
    Lex d c True [] (load s expand specifier site) (fun _ => True) fun _ => [] := by
  intro run record run' h plain
  unfold load at h
  obtain ⟨_, _, hget, h₁⟩ := bind_eq_ok h
  cases hget
  cases hfound : Assoc.get? specifier run.modules with
  | some found =>
    rw [hfound] at h₁
    cases h₁
    exact ⟨plain, fun _ R hv _ _ => ⟨trivial, R, [], hv, .refl c R run, rfl, trivial⟩⟩
  | none =>
    rw [hfound] at h₁
    dsimp only at h₁
    cases hloading : run.loading.contains specifier with
    | true =>
      rw [hloading] at h₁
      cases h₁
    | false =>
      rw [hloading] at h₁
      obtain ⟨_, run₁, hset, h₂⟩ := bind_eq_ok h₁
      cases hset
      cases htext : s.load specifier with
      | error reason =>
        rw [htext] at h₂
        cases h₂
      | ok text =>
        rw [htext] at h₂
        obtain ⟨plain₁, post⟩ := compile_grows he h₂ plain
        refine ⟨plain₁, fun _ R hv ho _ => ?_⟩
        obtain ⟨R', hv', grows⟩ := post R (hv.of_same rfl)
        have grows : R.Grows run R' run' := ⟨grows.next, grows.agree, grows.bodies, grows.modules⟩
        exact ⟨trivial, R', [], hv', grows.step ho, rfl, trivial⟩

end Expand

/-- Without transformers all readers read in regions. -/
theorem passes_lexical (s : Setup) (limit : Nat) (home : Home) : (passes s limit home).Lexical := by
  induction limit generalizing home with
  | zero =>
    exact ⟨fun _ _ => Parse.lex_exhausted, fun _ _ => Parse.lex_exhausted, fun _ _ => Parse.lex_exhausted,
      fun _ _ _ => Lex.exhausted, fun _ _ _ _ => Lex.exhausted⟩
  | succ limit ih =>
    have ha := agrees_passes s limit
    refine ⟨fun _ _ => Parse.lex_assignmentStep (ih home), fun _ _ => Parse.lex_unaryStep s (ih home),
      fun _ _ => Parse.lex_statementStep s home (ih home) (ha home), fun _ _ => Expand.lex_body (ih home) (ha home),
      fun _ _ => lex_load s ?_⟩
    exact fun home d c tokens => lex_moduleItems s home (ih home) (ha home) tokens

/-- In the end of a run without transformers everything is bound in a region, and every module is placed in its own. -/
theorem exists_regions_of_expandProgram {s : Setup} {expansion : Expansion} {run : Run}
    (h : expandProgram s text = .ok expansion run) (plain : run.Plain) :
    ∃ R : Regions, R.Valid run ∧ ∀ entry ∈ run.modules, ∃ M, entry.2.Placed R run.store M := by
  have hitems : ItemsLexical (Expand.items s) := fun home d c tokens =>
    lex_moduleItems s home (passes_lexical s _ home) (agrees_passes s _ home) tokens
  obtain ⟨record, run₁, hentry, h₁⟩ := bind_eq_ok (x := Expand.entry s text) (f := Expand.finish s) h
  obtain ⟨_, _, hget, h₂⟩ := bind_eq_ok h₁
  cases hget
  obtain ⟨_, run₂, hnote, h₃⟩ := bind_eq_ok h₂
  obtain ⟨store, modules⟩ := still_note _ _ _ _ hnote
  cases h₃
  have plain₁ : run₁.Plain := fun b hb => plain b (store ▸ hb)
  obtain ⟨R, hv, grows⟩ := (compile_grows hitems hentry plain₁).2 (fun _ => ⟨.empty, [], []⟩) ⟨nofun, nofun, nofun⟩
  refine ⟨R, hv.of_same store, fun entry hentry => ?_⟩
  rcases grows.modules entry (modules ▸ hentry) with hold | ⟨M, _, placed⟩
  · cases hold
  · rw [store]
    exact ⟨M, placed⟩

end Hygiene
