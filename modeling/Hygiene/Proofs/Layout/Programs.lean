import Mathlib
import Hygiene.Proofs.Layout.Items

/-!
# Programs without sites

Modules whose items differ in their sites only are written the same when locations are left out.
-/

namespace Hygiene

open HasSites (unplaced)

/-! ### Output -/

namespace Lowering

variable {w w' : Lowering} (huntracked : w.config.trackLocations = false) (hconfig : w.config = w'.config)

include huntracked hconfig

theorem node_untracked (kind : String) (site site' : Site) (fields : List (String × Field)) :
    w.node kind site fields = w'.node kind site' fields := by
  simp only [node, location, ← hconfig, huntracked, Bool.false_eq_true, if_false]

/-- Without locations, stores that agree are written the same. -/
theorem corresponds_unplaced (hstore : unplaced w.store = unplaced w'.store) : Corresponds .unplaced Eq Eq w w' where
  name := by
    rintro ident _ rfl
    unfold name
    rw [Token.name_unplaced, ← hconfig]
    rcases Store.resolveIdent_alike hstore ident with ⟨hnone, hnone'⟩ | ⟨b, b', hb, hb', hsame⟩
    · rw [hnone, hnone']
    · have hfresh : b.fresh = b'.fresh := (congrArg Binding.fresh hsame :)
      have hrenamed : b.isRenamed = b'.isRenamed := (congrArg Binding.isRenamed hsame :)
      simp only [hb, hb', hfresh, hrenamed]
  unnamed := rfl
  isTransformer := by
    rintro ident _ rfl
    unfold isTransformer
    rcases Store.resolveIdent_alike hstore ident with ⟨hnone, hnone'⟩ | ⟨b, b', hb, hb', hsame⟩
    · rw [hnone, hnone']
    · have hkind : b.kind = b'.kind := (congrArg Binding.kind hsame :)
      simp only [hb, hb', Option.any_some, hkind]
  bare hfields := by rw [hfields.eq]
  node _ hfields := by
    rw [hfields.eq]
    exact node_untracked huntracked hconfig _ _ _ _

/-- Modules with alike items are written the same. -/
theorem module_eq_of_alike (hstore : unplaced w.store = unplaced w'.store) {record record' : ModuleRecord} (h : record.Alike record') :
    w.module record = w'.module record' := by
  have hc := corresponds_unplaced huntracked hconfig hstore
  have hitems : _ = _ := List.forall₂_eq_eq_eq ▸ hc.items h.items fun item _ => hc.sameLists item
  rw [module, module, hitems]
  exact node_untracked huntracked hconfig _ _ _ _

end Lowering

/-! ### Programs -/

namespace Expand

variable {s : Setup}

/-- What becomes of the tokens of a module that has been read. -/
def assemble (s : Setup) (specifier : String) (file : Nat) (dialect : Dialect) (tokens : List Token) :
    Expand ModuleRecord := do
  let scope ← freshScope (.text file tokens)
  let items ← whileLoading specifier (items s ⟨specifier, file, dialect⟩ (Token.wrap scope tokens))
  match ModuleRecord.ofItems (← get).store specifier file dialect items with
  | .error ident => fail (.parse (.undeclaredExport ident.name)) ident.site
  | .ok record =>
    keep specifier record
    return record

/-- What looks at the run may look at all in which the runs agree. -/
theorem Matches.get_bind {α : Type} {R : α → α → Prop} {f f' : Run → Expand α} (hrecalls : ∀ run, Recalls (f run))
    (hresults : ∀ run a, (f run).MayGive a → ∃ a', R a a')
    (h : ∀ run run' : Run, run.Alike run' → Matches R (f run) (f' run')) : Matches R (get >>= f) (get >>= f') :=
  ⟨.bind .get hrecalls, fun a ⟨run, run', heq⟩ => hresults run a ⟨run, run', heq⟩,
    fun {run run'} hrun hself => (h run run' hrun).same hrun hself⟩

theorem Matches.whileLoading {α : Type} {R : α → α → Prop} {x x' : Expand α} (hx : Matches R x x') (specifier : String) :
    Matches R (whileLoading specifier x) (whileLoading specifier x') where
  recalls := hx.recalls.whileLoading specifier
  results a := by
    rintro ⟨run, run', heq⟩
    obtain ⟨run₁, heq, _⟩ := whileLoading_eq_ok heq
    exact hx.results a ⟨_, run₁, heq⟩
  same {run run'} hrun hself := by
    have hstart : Run.Alike { run with loading := specifier :: run.loading } { run' with loading := specifier :: run'.loading } :=
      ⟨hrun.store, hrun.nextLambda, hrun.told, hrun.bare, hrun.bare'⟩
    have hend : ∀ {run run' : Run}, run.Alike run' → Run.Alike { run with loading := run.loading.tail }
        { run' with loading := run'.loading.tail } := fun hrun =>
      ⟨hrun.store, hrun.nextLambda, hrun.told, hrun.bare, hrun.bare'⟩
    have hsame := hx.same hstart
    unfold Expand.whileLoading at hself ⊢
    cases heq : x { run with loading := specifier :: run.loading } with
    | ok a run₁ =>
      rw [heq] at hself hsame
      have hsame := hsame ⟨hself.undeclared, hself.unrequested⟩
      cases heq' : x' { run' with loading := specifier :: run'.loading } with
      | ok a' run₁' =>
        rw [heq'] at hsame
        exact ⟨hsame.1, hend hsame.2⟩
      | error e' run₁' =>
        rw [heq'] at hsame
        cases hsame
    | error e run₁ =>
      rw [heq] at hself hsame
      have hsame := hsame ⟨hself.undeclared, hself.unrequested⟩
      cases heq' : x' { run' with loading := specifier :: run'.loading } with
      | ok a' run₁' =>
        rw [heq'] at hsame
        cases hsame
      | error e' run₁' =>
        rw [heq'] at hsame
        exact ⟨hsame.1, hend hsame.2⟩

theorem matches_keep (specifier : String) (record record' : ModuleRecord) :
    Matches Eq (keep specifier record) (keep specifier record') :=
  ⟨.modify fun _ => .of_events (List.nil_append _).symm rfl, fun _ _ => ⟨_, rfl⟩,
    fun hrun _ => ⟨rfl, hrun.store, hrun.nextLambda, hrun.told, hrun.bare, hrun.bare'⟩⟩

/-- The record that is made of items, and the export that has no binding, do not depend on sites. -/
theorem matches_ofItems (specifier : String) (file : Nat) (dialect : Dialect) {items items' : List ModuleItem}
    (hitems : List.Forall₂ (ModuleItem.Alike .unplaced) items items') : Matches ModuleRecord.Alike
    (do
      match ModuleRecord.ofItems (← get).store specifier file dialect items with
      | .error ident => fail (.parse (.undeclaredExport ident.name)) ident.site
      | .ok record =>
        keep specifier record
        return record)
    (do
      match ModuleRecord.ofItems (← get).store specifier file dialect items' with
      | .error ident => fail (.parse (.undeclaredExport ident.name)) ident.site
      | .ok record =>
        keep specifier record
        return record) := by
  refine .get_bind (fun run => ?_) (fun run record => ?_) fun run run' hrun => ?_
  · split
    · exact .fail trivial
    · next record _ => exact .bind (matches_keep specifier record record).recalls fun _ => .pure
  · rintro ⟨run₁, run₂, heq⟩
    cases hrecord : ModuleRecord.ofItems run.store specifier file dialect items with
    | error ident =>
      rw [hrecord] at heq
      cases heq
    | ok record =>
      rw [hrecord] at heq
      cases heq
      exact ⟨{ record with items := items' }, rfl, rfl, rfl, (ModuleRecord.ofItems_ok hrecord).2 ▸ hitems⟩
  · have hsame : SameExports (ModuleRecord.ofItems run.store specifier file dialect items)
        (ModuleRecord.ofItems run'.store specifier file dialect items') :=
      ModuleRecord.sameExports_addItems hrun.store hitems ⟨rfl, rfl, rfl, hitems⟩
    generalize ModuleRecord.ofItems run.store specifier file dialect items = r,
      ModuleRecord.ofItems run'.store specifier file dialect items' = r' at hsame
    match r, r', hsame with
    | .ok record, .ok record', h => exact .bind (matches_keep specifier record record') fun _ _ _ => .pure h
    | .error ident, .error _, rfl =>
      simp only [Token.name_unplaced]
      exact .fail

theorem matches_assemble (s : Setup) (specifier : String) (file : Nat) (dialect : Dialect) (tokens : List Token) :
    Matches ModuleRecord.Alike (assemble s specifier file dialect tokens) (assemble s specifier file dialect (unplaced tokens)) := by
  refine .bind (matches_freshScope _ _) ?_
  rintro scope _ rfl
  refine .bind (.whileLoading (matches_items s _ (Likeness.wrap rfl (Token.alike_unplaced tokens))) specifier) ?_
  exact fun _ _ hitems => matches_ofItems specifier file dialect hitems

/-- Without locations the output does not depend on sites. -/
theorem matches_finish (hlocations : s.config.trackLocations = false) {record record' : ModuleRecord}
    (h : record.Alike record') : Matches Eq (finish s record) (finish s record') where
  recalls := makes_finish (c := .recalling) (fun _ _ => ⟨List.suffix_refl _, List.suffix_refl _⟩) s record
  results _ _ := ⟨_, rfl⟩
  same {run run'} hrun _ := by
    have hmodule : Lowering.module ⟨run.store, run.sources, s.config⟩ record =
        Lowering.module ⟨run'.store, run'.sources, s.config⟩ record' := by
      refine Lowering.module_eq_of_alike hlocations ?_ hrun.store h
      rfl
    obtain ⟨hexpansions, horigins, hdiagnostics⟩ : run.expansions = run'.expansions ∧ run.origins = run'.origins ∧
        run.diagnostics = run'.diagnostics := by simpa [Run.told] using hrun.told
    refine ⟨?_, hrun.store, hrun.nextLambda, ?_, hrun.bare, hrun.bare'⟩
    · simp only [hmodule, hexpansions, horigins, hdiagnostics]
    · simp only [Run.told, hexpansions]

/-- What becomes of the tokens of a program that has been read. -/
def assembleProgram (s : Setup) (dialect : Dialect) (tokens : List Token) : Expand Expansion := do
  finish s (← assemble s entrySpecifier 0 dialect tokens)

theorem matches_assembleProgram (hlocations : s.config.trackLocations = false) (dialect : Dialect) (tokens : List Token) :
    Matches Eq (assembleProgram s dialect tokens) (assembleProgram s dialect (unplaced tokens)) :=
  .bind (matches_assemble s _ _ _ tokens) fun _ _ h => matches_finish hlocations h

end Expand

/-! ### Texts -/

/-- The result or the error without sites. -/
def withoutSites {ε α : Type} [HasSites ε] [HasSites α] : Except ε α → Except ε α
  | .ok a => .ok (unplaced a)
  | .error e => .error (unplaced e)

instance : HasSites Dialect := ⟨id⟩

instance : HasSites PragmaFault := ⟨id⟩

theorem dropSemicolon_unplaced (tokens : List Token) : dropSemicolon (unplaced tokens) = unplaced (dropSemicolon tokens) := by
  cases tokens with
  | nil => rfl
  | cons t ts =>
    simp only [unplaced_cons, dropSemicolon, Token.isPunct_unplaced]
    split <;> rfl

/-- A pragma can be seen without sites. -/
theorem splitPragma_unplaced (tokens : List Token) : splitPragma (unplaced tokens) = withoutSites (splitPragma tokens) := by
  match tokens with
  | [] => rfl
  | [t] => rfl
  | hash :: lang :: rest =>
    simp only [unplaced_cons, splitPragma, Token.isPunct_unplaced, Token.isWord_unplaced, Token.site_unplaced]
    split
    · match rest with
      | [] => rfl
      | .atom mark (.str name) :: rest =>
        simp only [unplaced_cons, Token.unplaced_atom]
        cases Dialect.ofPragma? name with
        | none => rfl
        | some dialect => simp only [dropSemicolon_unplaced]; rfl
      | .atom mark (.ident _) :: rest | .atom mark (.punct _) :: rest | .atom mark (.number _ _) :: rest =>
        simp only [unplaced_cons, Token.unplaced_atom]
        rfl
      | .nest mark shape children :: rest =>
        simp only [unplaced_cons, Token.unplaced_nest]
        rfl
    · rfl

/-- The tokens of a text without sites do not depend on its spans. -/
theorem Token.unplaced_ofTrees (file : Nat) (trees : List (Tree Span)) : unplaced (ofTrees file trees) =
    (trees.map (Tree.map fun _ => ())).map (Tree.map fun _ => ⟨.unknown, .empty⟩) := by
  simp only [unplaced_list, ofTrees, List.map_map]
  refine List.map_congr_left fun tree _ => ?_
  simp only [Function.comp_apply, ofTree, unplaced_eq, Tree.map_map]
  rfl

/-- The two texts have the same token trees but for their spans: they differ in blank space and comments only. -/
def SameTokens (text text' : String) : Prop := ∃ trees trees', read text = .ok trees ∧ read text' = .ok trees' ∧
  trees.map (Tree.map fun _ => ()) = trees'.map (Tree.map fun _ => ())

/-- The run in which a program has been registered. -/
def Run.registered (text : String) : Run :=
  { log := ["expanding module '" ++ entrySpecifier ++ "'"], sources := ((({} : Run).sources).add entrySpecifier text).2 }

/-- A program is registered, its pragma is cut off, and the rest of its tokens is assembled. -/
theorem expandProgram_eq (s : Setup) {text : String} {trees : List (Tree Span)} (hread : read text = .ok trees) :
    expandProgram s text = match splitPragma (Token.ofTrees 0 trees) with
      | .error (fault, site) => (Expand.fail (.parse (.pragma fault)) site) (Run.registered text)
      | .ok (pragma, tokens) =>
        Expand.assembleProgram s (pragma.getD s.config.entryDialect) tokens (Run.registered text) := by
  have hprogram : Expand.program s text = (do
      Expand.note ("expanding module '" ++ entrySpecifier ++ "'")
      let file ← Expand.addSource entrySpecifier text
      let r ← Expand.readModule entrySpecifier text file s.config.entryDialect
      Expand.finish s (← Expand.assemble s entrySpecifier file r.1 r.2)) := by
    unfold Expand.program Expand.entry
    rw [Expand.compile_eq]
    refine (bind_assoc _ _ _).trans (bind_congr fun _ => (bind_assoc _ _ _).trans (bind_congr fun file => ?_))
    exact (bind_assoc _ _ _).trans (bind_congr fun r => rfl)
  have hstart : expandProgram s text = (do
      let r ← Expand.readModule entrySpecifier text 0 s.config.entryDialect
      Expand.assembleProgram s r.1 r.2) (Run.registered text) := by
    rw [expandProgram, hprogram]
    rfl
  rw [hstart]
  simp only [Expand.readModule, hread]
  cases splitPragma (Token.ofTrees 0 trees) with
  | error e => rfl
  | ok r => rfl

/-- How two programs expand alike. -/
inductive SameExpansion : EStateM.Result ExpandError Run Expansion → EStateM.Result ExpandError Run Expansion → Prop where
  /-- They give the same output with the same invocations and reports, and their bindings have the same fresh names. -/
  | expand {x : Expansion} {run run' : Run} (fresh : run.store.bindings.toList.map Binding.fresh =
      run'.store.bindings.toList.map Binding.fresh) : SameExpansion (.ok x run) (.ok x run')
  /-- They fail with the same fault, which has one kind and one message. -/
  | fail {e e' : ExpandError} {run run' : Run} (fault : e.fault = e'.fault) : SameExpansion (.error e run) (.error e' run')

/-- Computations that end like a third one end like each other. -/
theorem Expand.EndAlike.sameExpansion {r r' t : EStateM.Result ExpandError Run Expansion} (h : EndAlike Eq r t)
    (h' : EndAlike Eq r' t) : SameExpansion r r' := by
  have hfresh : ∀ {run run' : Run}, run.Alike run' →
      run.store.bindings.toList.map Binding.fresh = run'.store.bindings.toList.map Binding.fresh := by
    intro run run' hrun
    have hview : ∀ store : Store, store.bindings.toList.map Binding.fresh = (unplaced store).bindings.toList.map Binding.fresh := by
      intro store
      rw [Store.toList_bindings_unplaced, unplaced_list, List.map_map]
      rfl
    rw [hview, hrun.store, ← hview]
  cases t with
  | ok y runy =>
    cases r with
    | error e run => cases h
    | ok x run =>
      cases r' with
      | error e' run' => cases h'
      | ok x' run' =>
        obtain ⟨rfl, hrun⟩ := h
        obtain ⟨rfl, hrun'⟩ := h'
        exact .expand ((hfresh hrun).trans (hfresh hrun').symm)
  | error f runf =>
    cases r with
    | ok x run => cases h
    | error e run =>
      cases r' with
      | ok x' run' => cases h'
      | error e' run' => exact .fail (h.1.trans h'.1.symm)

/-- Layout does not matter: when two programs with the same tokens come upon no import and no declaration of a
transformer, and locations are left out, they expand to the same output with the same invocations and fresh names, or
fail with the same fault. -/
theorem sameExpansion_of_sameTokens {s : Setup} (hlocations : s.config.trackLocations = false) {text text' : String}
    (htokens : SameTokens text text') (hself : (finalRun (expandProgram s text)).SelfContained)
    (hself' : (finalRun (expandProgram s text')).SelfContained) :
    SameExpansion (expandProgram s text) (expandProgram s text') := by
  obtain ⟨trees, trees', hread, hread', hsame⟩ := htokens
  have hunplaced : unplaced (Token.ofTrees 0 trees) = unplaced (Token.ofTrees 0 trees') := by
    rw [Token.unplaced_ofTrees, Token.unplaced_ofTrees, hsame]
  have hpragma : withoutSites (splitPragma (Token.ofTrees 0 trees)) = withoutSites (splitPragma (Token.ofTrees 0 trees')) := by
    rw [← splitPragma_unplaced, ← splitPragma_unplaced, hunplaced]
  have halike : ∀ text text', (Run.registered text).Alike (Run.registered text') := fun _ _ => ⟨rfl, rfl, rfl, rfl, rfl⟩
  rw [expandProgram_eq s hread] at hself ⊢
  rw [expandProgram_eq s hread'] at hself' ⊢
  cases hsplit : splitPragma (Token.ofTrees 0 trees) with
  | error e =>
    cases hsplit' : splitPragma (Token.ofTrees 0 trees') with
    | ok r' =>
      rw [hsplit, hsplit'] at hpragma
      cases hpragma
    | error e' =>
      rw [hsplit, hsplit'] at hpragma
      obtain ⟨fault, site⟩ := e
      obtain ⟨fault', site'⟩ := e'
      cases hpragma
      exact .fail rfl
  | ok r =>
    cases hsplit' : splitPragma (Token.ofTrees 0 trees') with
    | error e' =>
      rw [hsplit, hsplit'] at hpragma
      cases hpragma
    | ok r' =>
      rw [hsplit, hsplit'] at hpragma
      obtain ⟨pragma, tokens⟩ := r
      obtain ⟨pragma', tokens'⟩ := r'
      have hpair : (unplaced pragma, unplaced tokens) = (unplaced pragma', unplaced tokens') := Except.ok.inj hpragma
      obtain ⟨hdialect, htokens⟩ := Prod.mk.inj hpair
      obtain rfl : pragma = pragma' := by
        have hid : ∀ pragma : Option Dialect, unplaced pragma = pragma := fun _ => Option.map_id_apply
        rwa [hid, hid] at hdialect
      rw [hsplit] at hself
      rw [hsplit'] at hself'
      have hend := (Expand.matches_assembleProgram hlocations _ tokens).same (halike text text') hself
      have hend' := (Expand.matches_assembleProgram hlocations _ tokens').same (halike text' text') hself'
      rw [← htokens] at hend'
      exact hend.sameExpansion hend'

/-- A program without blank space. -/
def compactText : String := "let f=x=>x"

/-- The same program with blank space and a comment. -/
def spacedText : String := "let f = x // argument\n  => x"

/-- No module is requested and no transformer is declared. -/
def Run.isSelfContained (run : Run) : Bool :=
  run.requests.isEmpty && run.events.all fun
    | .declaring _ => false
    | _ => true

theorem Run.SelfContained.of_isSelfContained {run : Run} (h : run.isSelfContained = true) : run.SelfContained := by
  obtain ⟨hrequests, hevents⟩ := Bool.and_eq_true_iff.1 h
  refine ⟨fun binding hmem => ?_, List.isEmpty_iff.1 hrequests⟩
  cases List.all_eq_true.1 hevents _ hmem

theorem sameExpansion_compact_spaced : SameTokens compactText spacedText ∧
    (∃ x run, expandProgram .alone compactText = .ok x run) ∧
    SameExpansion (expandProgram .alone compactText) (expandProgram .alone spacedText) := by
  have htokens : SameTokens compactText spacedText := by
    let trees (a b c d e f : Span) : List (Tree Span) := [.atom a (.ident "let"), .atom b (.ident "f"), .atom c (.punct "="),
      .atom d (.ident "x"), .atom e (.punct "=>"), .atom f (.ident "x")]
    exact ⟨trees ⟨0, 3⟩ ⟨4, 5⟩ ⟨5, 6⟩ ⟨6, 7⟩ ⟨7, 9⟩ ⟨9, 10⟩, trees ⟨0, 3⟩ ⟨4, 5⟩ ⟨6, 7⟩ ⟨8, 9⟩ ⟨24, 26⟩ ⟨27, 28⟩,
      by cbv, by cbv, rfl⟩
  obtain ⟨x, run, hres, -⟩ := exists_of_succeeds (expandProgram .alone compactText) (fun _ _ => true) (by decide +kernel)
  exact ⟨htokens, ⟨x, run, hres⟩, sameExpansion_of_sameTokens rfl htokens (.of_isSelfContained (by decide +kernel))
    (.of_isSelfContained (by decide +kernel))⟩

end Hygiene
