import Hygiene.Proofs.Expand.Statements

/-!
# Reading of module items is sound

An imported transformer has a meaning at once: the one that the other module gave it.
-/

namespace Hygiene

open List

variable {record : ModuleRecord} {q : Prop} {wanted : String × Token × Site} {binding : Token}

variable {m : Mode} {l : List Content} {p : Passes}

namespace Parse

variable {parts : List (List Token)}

theorem sound_aliasedNames (what : String) (tokens : List Token) (h : Content.ofTokens tokens ⊆ l) :
    Expand.Sound m l (aliasedNames what tokens) fun r => Content.ofTokens (r.1.toList ++ [r.2]) := by
  unfold aliasedNames
  split
  · exact Expand.Sound.ite (fun _ => Expand.Sound.pure h) fun _ => Expand.Sound.fail
  · next first keyword second =>
    refine Expand.Sound.ite (fun _ => Expand.Sound.pure ?_) fun _ => Expand.Sound.fail
    exact List.Subset.trans (Content.ofTokens_subset (by simp [subset_def])) h
  · exact Expand.Sound.fail

theorem sound_importSpecifiers (h : Content.ofTokens parts.flatten ⊆ l) :
    Expand.Sound m l (importSpecifiers parts) fun specifiers =>
      specifiers.flatMap fun s => Content.ofTokens (s.source.toList ++ [s.binding]) := by
  refine Expand.Sound.mapM fun part hpart => ?_
  have hp : Content.ofTokens part ⊆ l :=
    List.Subset.trans (Content.ofTokens_subset fun t ht => mem_flatten.2 ⟨part, hpart, ht⟩) h
  refine Expand.Sound.bind (sound_aliasedNames _ _ hp) fun r => ?_
  exact Expand.Sound.pure (subset_append_left _ _)

theorem sound_exportSpecifiers (h : Content.ofTokens parts.flatten ⊆ l) :
    Expand.Sound m l (exportSpecifiers parts) fun specifiers =>
      specifiers.flatMap fun s => Content.ofTokens (s.inner :: s.outer.toList) := by
  refine Expand.Sound.mapM fun part hpart => ?_
  have hp : Content.ofTokens part ⊆ l :=
    List.Subset.trans (Content.ofTokens_subset fun t ht => mem_flatten.2 ⟨part, hpart, ht⟩) h
  refine Expand.Sound.bind (sound_aliasedNames _ _ hp) fun r => ?_
  split <;> exact Expand.Sound.pure (subset_append_left _ _)

theorem sound_defaultImport : Sound m l defaultImport fun t => Content.ofTokens t.toList := by
  refine .bind (sound_peekIs _) fun _ => .bind (sound_peekIs _) fun _ => .ite (fun _ => ?_) fun _ => ?_
  · refine .bind (sound_expectIdent _) fun binding => ?_
    refine .bind (.map (R := fun _ => []) (sound_eat _) fun _ => nil_subset _) fun _ => ?_
    exact .pure (subset_append_of_subset_right _ (subset_append_left _ _))
  · exact .pure (nil_subset _)

theorem sound_moduleSpecifier : Sound m l moduleSpecifier fun _ => [] := by
  refine .bind sound_peek fun t => ?_
  split
  · exact .bind sound_advance fun _ => .pure (nil_subset _)
  · exact sound_unexpected _

theorem sound_forSyntax : Sound m l forSyntax fun _ => [] := by
  refine .bind (sound_peekIs _) fun _ => .bind (sound_peekNthIs _ _) fun _ => .ite (fun _ => ?_) fun _ => ?_
  · refine .bind sound_advance fun _ => .bind sound_advance fun _ => ?_
    exact .pure (nil_subset _)
  · exact .pure (nil_subset _)

end Parse

theorem Content.ofTokens_flatMap {α : Type} (f : α → List Token) (xs : List α) :
    ofTokens (xs.flatMap f) = xs.flatMap fun x => ofTokens (f x) := by
  induction xs with
  | nil => rfl
  | cons x xs ih => rw [flatMap_cons, flatMap_cons, ofTokens_append, ih]

namespace Parse

theorem sound_importDeclaration : Sound m l importDeclaration Import.content := by
  have tail : ∀ (k : List Content) (start : Token) (binding : Option Token) (named : List ImportSpecifier),
      Content.ofTokens binding.toList ++ named.flatMap (fun s => Content.ofTokens (s.source.toList ++ [s.binding])) ⊆ k →
      Sound m k (do
        if ← peekIs (·.isWord "from") then advance else unexpected "`from`"
        let specifier ← moduleSpecifier
        let forSyntax ← forSyntax
        optionalSemicolon
        return { defaultBinding := binding, named, specifier, forSyntax, site := start.site.cover (← previousSite) })
        Import.content := by
    intro k start binding named h
    have rest : ∀ k', k ⊆ k' → Sound m k' (do
        let specifier ← moduleSpecifier
        let forSyntax ← forSyntax
        optionalSemicolon
        return { defaultBinding := binding, named, specifier, forSyntax, site := start.site.cover (← previousSite) })
        Import.content := by
      intro k' hk
      refine .bind sound_moduleSpecifier fun _ => .bind sound_forSyntax fun _ => ?_
      refine .bind sound_optionalSemicolon fun _ => .bind sound_previousSite fun _ => .pure ?_
      rw [Import.content, Content.ofTokens_append, Content.ofTokens_flatMap]
      grind
    refine .bind (sound_peekIs _) fun _ => .ite (fun _ => ?_) fun _ => ?_
    · exact .bind sound_advance fun _ => rest _ (by grind)
    · exact .bind (Q := fun _ => []) (sound_unexpected _) fun _ => rest _ (by grind)
  refine .bind (sound_next _) fun start => .bind sound_defaultImport fun binding => ?_
  refine .bind (sound_peekGroup _) fun _ => .ite (fun _ => ?_) fun _ => ?_
  · refine .bind (sound_expectGroup _ _) fun r => ?_
    refine .bind (.lift (sound_importSpecifiers ?_)) fun named => tail _ start binding named (by grind)
    exact List.Subset.trans (Content.ofTokens_subset (Token.splitCommas_subset _)) (subset_append_left _ _)
  · exact tail _ start binding [] (by simp only [flatMap_nil]; grind)

theorem sound_exportDeclaration (s : Setup) (home : Home) (hp : p.Sound) :
    Sound ⟨False, q, []⟩ l (exportDeclaration s home p) ExportDeclaration.content := by
  refine .bind (sound_peekIs _) fun _ => .ite (fun _ => ?_) fun _ => ?_
  · exact .bind (sound_function true) fun fn => .pure (subset_append_left _ _)
  refine .bind (sound_declarationKeyword home) fun kind => ?_
  cases kind with
  | some kind =>
    refine .bind (sound_declaration s home hp kind) fun d => .bind sound_optionalSemicolon fun _ => ?_
    exact .pure (subset_append_of_subset_right _ (subset_append_left _ _))
  | none =>
    refine .bind (sound_peekIs _) fun _ => .ite (fun _ => ?_) fun _ => sound_unexpected _
    refine .bind (sound_next _) fun binding => .bind hp.assign fun value => ?_
    refine .bind sound_optionalSemicolon fun _ => ?_
    refine .bind (.lift (Expand.sound_bindVariable (by grind))) fun _ => .pure ?_
    rw [ExportDeclaration.content]
    grind

theorem sound_exportItem (s : Setup) (home : Home) (hp : p.Sound) :
    Sound ⟨False, q, []⟩ l (exportItem s home p) ModuleItem.content := by
  refine .bind (sound_next _) fun start => .bind (sound_peekGroup _) fun _ => .ite (fun _ => ?_) fun _ => ?_
  · refine .bind (sound_expectGroup _ _) fun r => ?_
    refine .bind (.lift (sound_exportSpecifiers ?_)) fun specifiers => ?_
    · exact List.Subset.trans (Content.ofTokens_subset (Token.splitCommas_subset _)) (subset_append_left _ _)
    refine .bind sound_optionalSemicolon fun _ => .bind sound_previousSite fun _ => .pure ?_
    rw [ModuleItem.content, Content.ofTokens_flatMap]
    grind
  · refine .bind (sound_exportDeclaration s home hp) fun exported => .bind sound_previousSite fun _ => ?_
    exact .pure (subset_append_of_subset_right _ (subset_append_left _ _))

end Parse

/-- The identifiers that an import binds are part of it. -/
theorem Import.content_wanted {i : Import} (h : wanted ∈ i.wanted) :
    Content.ofTokens [wanted.2.1] ⊆ i.content := by
  refine Content.ofTokens_subset ?_
  simp only [Import.wanted, mem_append, mem_map] at h
  simp only [cons_subset, nil_subset, and_true, mem_append, mem_flatMap]
  rcases h with ⟨t, ht, rfl⟩ | ⟨s, hs, rfl⟩
  · exact Or.inl ht
  · exact Or.inr ⟨s, hs, by simp⟩

/-- A name that is exported as a transformer has a meaning. -/
theorem ModuleRecord.Exported.transformer? {run : Run} (h : record.Exported run) {name : String}
    {id : BindingId} (he : record.export? name = some (id, true)) :
    (run.registry.transformer? id).isSome = true := by
  unfold ModuleRecord.export? at he
  split at he
  · next hget =>
    cases he
    obtain ⟨key, hmem⟩ := Assoc.exists_mem_of_get? hget
    exact h _ hmem
  · simp at he

namespace Expand

variable {run : Run}

/-- Importing a transformer gives a new binding the meaning that the exported one has. -/
theorem bindTransformer_ends (hr : run.Sound)
    (hb : ∀ p ∈ Token.pieces binding, Arises run.events p) {exported : BindingId}
    (he : (run.registry.transformer? exported).isSome = true) : Ends run (do
      let id ← bind binding .transformer false
      match (← get).registry.transformer? exported with
      | some t => modify fun run => { run with registry := run.registry.define id t }
      | none => pure ()) fun _ run' => run.After run' := by
  have ha := awaits_afterBind hr hb false
  refine .bind_ok (bind_eq binding .transformer false run) (.get_bind ?_)
  obtain ⟨t, ht⟩ := Option.isSome_iff_exists.1 he
  have ht₁ : (afterBind run binding .transformer false).registry.transformer? exported = some t := ht
  rw [ht₁]
  obtain ⟨key, hmem⟩ := Assoc.exists_mem_of_get? ht₁
  exact (defineTransformer_ends ha (ha.sound.transformers _ hmem) (ha.sound.outputScopes _ hmem)).imp fun _ _ h => h.1

/-- Importing a value for compile-time code binds a name to the value of the export. -/
theorem bindValue_ends (s : Setup) (hr : run.Sound)
    (hrecord : Content.Good (Arises run.events) record.content)
    (hb : ∀ p ∈ Token.pieces binding, Arises run.events p) (specifier name : String) : Ends run (do
      let values ← instantiate s .compileTime (← get).modules.length record
      let id ← bind binding (.compileTimeImport specifier name) false
      let value := (Assoc.get? name values).getD .undefined
      modify fun run => { run with registry := run.registry.defineValue id value }) fun _ run' => run.After run' := by
  refine .get_bind ?_
  refine .bind (instantiate_ends s .compileTime _ hr hrecord) ?_
  rintro values run₁ ⟨hafter, hvalues⟩
  let run₂ := afterBind run₁ binding (.compileTimeImport specifier name) false
  have hr₂ : run₂.Sound := sound_afterBind hafter.1 (fun p hp => hafter.2.arises p (hb p hp)) (by simp [BindingKind.Renames])
  refine .bind_ok (bind_eq binding _ false run₁) ?_
  refine hafter.trans ⟨{ hr₂ with values := fun entry he => ?_ }, ⟨⟨[_], rfl, fun h => h.elim⟩, fun id h => ?_, fun _ h => h⟩⟩
  · rcases Assoc.mem_insert he with heq | he
    · rw [heq]
      refine Value.meets_ofPieces.1 (Value.meets_getD fun v hv => Value.meets_of_get? (fun field hf => ?_) hv)
      exact Value.meets_ofPieces.2 ((hvalues field hf).mono fun _ => Arises.old)
    · exact hr₂.values entry he
  · have h₂ : run₂.Unsettled id := h
    exact (unsettled_afterBind h₂).resolve_right fun h => by cases h.1

theorem bindImport_ends (s : Setup) (hr : run.Sound)
    (hrecord : Content.Good (Arises run.events) record.content) (he : record.Exported run) (imported : Import) (hw : ∀ p ∈ Token.pieces wanted.2.1, Arises run.events p) :
    Ends run (bindImport s record imported wanted) fun _ run' => run.After run' := by
  obtain ⟨name, binding, site⟩ := wanted
  unfold bindImport
  dsimp only
  split
  · exact hr
  · next exported hexport => exact bindTransformer_ends hr hw (he.transformer? hexport)
  · split
    · exact bindValue_ends s hr hrecord hw _ _
    · have hk : Known False run.events (Content.ofTokens [binding]) := .of_tokens (by simpa [Token.piecesAll] using hw)
      have hbind : Sound ⟨False, False, []⟩ (Content.ofTokens [binding])
          (discard (bind binding (.runtimeImport imported.specifier name) false)) fun _ => [] :=
        .bind (sound_bind false (fun _ h => h) rfl (by simp [BindingKind.Renames])) fun _ => .pure (nil_subset _)
      refine (hbind run hr (fun h => h.elim) (fun _ h => by cases h) hk).imp ?_
      rintro _ run' ⟨hr', he', _⟩
      exact ⟨hr', he'⟩

theorem sound_request (specifier : String) : Sound m l (request specifier) fun _ => [] :=
  fun _ hr _ _ _ => ⟨hr.of_sameHistory ⟨rfl, rfl, rfl, rfl, rfl⟩ hr.heap, Run.SameHistory.extends ⟨rfl, rfl, rfl, rfl, rfl⟩, .nil⟩

theorem sound_processImport (s : Setup) (hp : p.Sound) {imported : Import} (h : imported.content ⊆ l) :
    Sound ⟨False, True, []⟩ l (processImport s p imported) fun _ => [] := by
  refine .bind (sound_request _) fun _ => ?_
  intro run hr hs _ hl
  refine .bind (hp.load _ _ run hr (hs trivial)) ?_
  rintro record run₁ ⟨hr₁, he₁, hrecord, hexported⟩
  refine Ends.imp (.forM (I := run₁.After) hr₁.after_self fun wanted hw run' h' => ?_) ?_
  · refine (bindImport_ends s h'.1 (hrecord.good.mono h'.2.arises) (fun e hmem => h'.2.keeps _ (hexported e hmem))
      imported ?_).imp fun _ _ h'' => h'.trans h''
    have := ((hl.mono (List.Subset.trans (Import.content_wanted hw) h)).extend (he₁.trans h'.2)).tokens
    simpa [Token.piecesAll] using this
  · rintro _ run₂ h₂
    exact ⟨h₂.1, he₁.trans h₂.2, .nil⟩

end Expand

namespace Parse

/-- The content of an item, if there is one. -/
def itemContent (item : Option ModuleItem) : List Content := item.toList.flatMap ModuleItem.content

theorem sound_moduleItem (s : Setup) (home : Home) (hp : p.Sound) :
    Sound ⟨False, True, []⟩ l (moduleItem s home p) itemContent := by
  refine .bind (sound_invokeHere s) fun _ => .ite (fun _ => .pure (nil_subset _)) fun _ => ?_
  refine .bind (sound_peekIs _) fun _ => .ite (fun _ => ?_) fun _ => ?_
  · refine .bind sound_importDeclaration fun imported => ?_
    refine .bind (.lift (Expand.sound_processImport s hp (subset_append_left _ _))) fun _ => .pure ?_
    simp only [itemContent, Option.toList, flatMap_cons, flatMap_nil, ModuleItem.content]
    grind
  refine .bind (sound_peekIs _) fun _ => .ite (fun _ => ?_) fun _ => ?_
  · exact .map (sound_exportItem s home hp) fun item => by simp [itemContent]
  · refine .bind hp.stmt fun st => .pure ?_
    cases st with
    | none => exact nil_subset _
    | some st =>
      simp only [itemContent, Option.map, Option.toList, flatMap_cons, flatMap_nil, ModuleItem.content,
        Statement.contentOption]
      grind

theorem sound_moduleItems (s : Setup) (home : Home) (hp : p.Sound) (limit : Nat) :
    Sound ⟨False, True, []⟩ l (moduleItems s home p limit) (·.flatMap ModuleItem.content) := by
  induction limit generalizing l with
  | zero => exact sound_exhausted
  | succ limit ih =>
    refine .bind sound_atEnd fun _ => .ite (fun _ => .pure (nil_subset _)) fun _ => ?_
    refine .bind (sound_moduleItem s home hp) fun item => ?_
    cases item with
    | none => exact ih
    | some item =>
      refine .bind ih fun items => .pure ?_
      simp only [itemContent, Option.toList, flatMap_cons, flatMap_nil]
      grind

end Parse

/-- The expansion of the tokens of a module is sound. -/
theorem Expand.sound_moduleItems (s : Setup) (home : Home) (hp : p.Sound) {tokens : List Token}
    (h : Content.ofTokens tokens ⊆ l) :
    Expand.Sound ⟨False, True, []⟩ l (Expand.moduleItems s home p tokens) (·.flatMap ModuleItem.content) := by
  refine Expand.Sound.bind (Parse.Sound.on (Parse.sound_moduleItems s home hp _) h) fun r => ?_
  refine Expand.Sound.mapM fun item hitem => (item.finishes hp.body).sound.of_subset ?_
  intro c hc
  have : c ∈ r.1.flatMap ModuleItem.content := mem_flatMap.2 ⟨item, hitem, hc⟩
  grind

theorem Expand.completed_mapM {f : ModuleItem → Expand ModuleItem}
    (hf : ∀ item, Gives (f item) fun item' => Completed item'.lambdas) (items : List ModuleItem) :
    Gives (items.mapM f) fun items' => Completed (items'.flatMap ModuleItem.lambdas) := by
  induction items with
  | nil =>
    rw [mapM_nil]
    exact .pure completed_nil
  | cons item items ih =>
    rw [mapM_cons]
    refine .bind (hf item) fun item' h => .bind ih fun items' h' => .pure ?_
    exact completed_append.2 ⟨h, h'⟩

/-- The items of an expanded module are completed. -/
theorem Expand.completed_moduleItems (s : Setup) (home : Home) (hp : p.Sound) (tokens : List Token) :
    Gives (Expand.moduleItems s home p tokens) fun items => Completed (items.flatMap ModuleItem.lambdas) :=
  .bind (.any _) fun _ _ => completed_mapM (fun item => (item.finishes hp.body (q := True)).gives) _

end Hygiene
